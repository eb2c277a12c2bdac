import Geas.Compiler.Grammar
import Mathlib.Logic.Basic

/-!
# The parse functions end

Between two levels of nesting the parse functions call each other at most `stretch`
deep, so the ceiling bounds the recursion, with one exception: a subcontract inside a
subcontract is parsed by a call that opens no level.  A discipline counts the calls a
body may still open before the next level; every parse function keeps it, and every
turn of a loop reads a token or is the last.
-/

namespace Geas.Compiler.Parse

open Geas.Lib Geas.Lib.Descent
open Geas.Runtime (CString ascii)

/-- The most calls in each other without a level of nesting between them. -/
def stretch : Nat := 7

/-- The bound the ceiling sets. -/
def depthBound : Nat := stretch * (ceiling + 1)

/-- The `subcontract` keywords of a stream. -/
def subKeywords (toks : List Token) : Nat := toks.countP (·.kind = .kw .subcontract)

/-! ## The discipline of a parse -/

/-- The state in the body of a parse function. -/
structure Sound (most : Nat) (p : Parser) : Prop where
  ends : EndsInEof p.toks
  depth : p.depth ≤ ceiling
  live : p.calls.live ≤ p.calls.deepest
  deepest : p.calls.deepest ≤ depthBound + p.calls.deepestSubs
  liveSubs : p.calls.liveSubs ≤ p.calls.deepestSubs
  deepestSubs : p.calls.deepestSubs ≤ p.calls.deepest
  subs : p.calls.liveSubs < p.calls.live
  bounded : p.calls.deepestSubs ≤ most

/-- A body may run with `n` calls of room, `room` of them before the next level.  `most`
bounds the subcontracts that are open or still to come. -/
structure Ready (most n room : Nat) (p : Parser) : Prop extends Sound most p where
  level : p.calls.live + room ≤ stretch * (p.depth + 1) + p.calls.liveSubs
  toCome : p.calls.liveSubs + subKeywords p.toks ≤ most
  fuel : depthBound + most < p.calls.live + n

/-- A body leaves the levels and calls as it found them. -/
structure After (most : Nat) (p q : Parser) : Prop extends Sound most q where
  depth_eq : q.depth = p.depth
  live_eq : q.calls.live = p.calls.live
  liveSubs_eq : q.calls.liveSubs = p.calls.liveSubs
  suffix : q.toks <:+ p.toks
  pos_eq : q.pos + q.toks.length = p.pos + p.toks.length
  grows : p.calls.deepestSubs ≤ q.calls.deepestSubs

theorem After.shorter {most : Nat} {p q : Parser} (after : After most p q) :
    q.toks.length ≤ p.toks.length :=
  after.suffix.length_le

theorem After.trans {most : Nat} {p q t : Parser} (first : After most p q) (next : After most q t) :
    After most p t :=
  ⟨next.toSound, next.depth_eq.trans first.depth_eq, next.live_eq.trans first.live_eq,
    next.liveSubs_eq.trans first.liveSubs_eq, next.suffix.trans first.suffix,
    next.pos_eq.trans first.pos_eq, Nat.le_trans first.grows next.grows⟩

/-- The discipline of the bodies. -/
def disc (most n room : Nat) : Discipline Parser where
  ready := Ready most n room
  after := After most
  left p := p.toks.length
  refl ready := ⟨ready.toSound, rfl, rfl, rfl, List.suffix_rfl, rfl, Nat.le_refl _⟩
  trans := After.trans
  keeps := by
    intro p q ready after
    refine ⟨after.toSound, ?_, ?_, ?_⟩
    · rw [after.live_eq, after.depth_eq, after.liveSubs_eq]
      exact ready.level
    · rw [after.liveSubs_eq]
      have fewer : subKeywords q.toks ≤ subKeywords p.toks := after.suffix.sublist.countP_le
      exact Nat.le_trans (Nat.add_le_add_left fewer _) ready.toCome
    · rw [after.live_eq]
      exact ready.fuel
  left_le after := after.shorter

variable {most n room : Nat} {α β : Type}

/-- A body that reads a token when there is one. -/
class Moves (most n room : Nat) (m : P α) : Prop where
  ends : ∀ p, Ready most n room p → p.kind ≠ .eof →
    Ends m p fun _ q => After most p q ∧ q.toks.length < p.toks.length

instance {m : P α} {f : α → P β} [Moves most n room m] [∀ a, Steady (disc most n room) (f a)] :
    Moves most n room (m >>= f) where
  ends p ready awake := by
    refine .bind (Moves.ends p ready awake) fun a q ⟨after, less⟩ => ?_
    refine .mono (Steady.ends q ((disc most n room).keeps ready after)) fun b t afterNext => ?_
    exact ⟨(disc most n room).trans after afterNext, Nat.lt_of_le_of_lt afterNext.shorter less⟩

/-! ## Operations -/

/-- A change that leaves the tokens, the levels and the calls alone. -/
theorem Ready.frame {p q : Parser} (ready : Ready most n room p) (toks : q.toks = p.toks)
    (pos : q.pos = p.pos) (depth : q.depth = p.depth) (calls : q.calls = p.calls) :
    After most p q := by
  obtain ⟨sound, -, -, -⟩ := ready
  obtain ⟨ends, ceiling, live, deepest, liveSubs, deepestSubs, subs, bounded⟩ := sound
  rw [← toks] at ends
  rw [← depth] at ceiling
  rw [← calls] at live deepest liveSubs deepestSubs subs bounded
  refine ⟨⟨ends, ceiling, live, deepest, liveSubs, deepestSubs, subs, bounded⟩, depth, ?_, ?_, ?_,
    ?_, ?_⟩
  · rw [calls]
  · rw [calls]
  · exact ⟨[], toks⟩
  · rw [toks, pos]
  · exact Nat.le_of_eq (by rw [calls])

theorem steady_update {f : Parser → Parser} (toks : ∀ p, (f p).toks = p.toks)
    (pos : ∀ p, (f p).pos = p.pos) (depth : ∀ p, (f p).depth = p.depth)
    (calls : ∀ p, (f p).calls = p.calls) : Steady (disc most n room) (update f : P Unit) where
  ends p ready := .update (Ready.frame ready (toks p) (pos p) (depth p) (calls p))

theorem EndsInEof.advance {p : Parser} (ends : EndsInEof p.toks) (awake : p.kind ≠ .eof) :
    EndsInEof p.advance.toks ∧ p.advance.toks.length + 1 = p.toks.length := by
  obtain ⟨before, last, spelled, atEof⟩ := ends
  cases before with
  | nil =>
      refine absurd ?_ awake
      simpa [Parser.kind, Parser.tok, spelled] using atEof
  | cons t before =>
      refine ⟨⟨before, last, ?_, atEof⟩, ?_⟩
      · simp [Parser.advance, spelled]
      · simp [Parser.advance, spelled]

theorem Ready.advance {p : Parser} (ready : Ready most n room p) (awake : p.kind ≠ .eof) :
    After most p p.advance ∧ p.advance.toks.length < p.toks.length := by
  obtain ⟨ends, one⟩ := ready.ends.advance awake
  have passed : p.advance.pos + p.advance.toks.length = p.pos + p.toks.length := by
    have : p.advance.pos = p.pos + 1 := rfl
    omega
  exact ⟨⟨⟨ends, ready.depth, ready.live, ready.deepest, ready.liveSubs, ready.deepestSubs,
    ready.subs, ready.bounded⟩, rfl, rfl, rfl, List.tail_suffix _, passed,
    Nat.le_refl _⟩, by omega⟩

theorem pEat_ends {k : Kind} (real : k ≠ .eof) {p : Parser} (ready : Ready most n room p) :
    Ends (pEat k) p fun eaten q =>
      After most p q ∧ (eaten = true → q.toks.length < p.toks.length) := by
  unfold pEat pAt
  refine .ask_bind ?_
  by_cases here : p.kind = k
  · rw [if_pos (by simpa using here)]
    obtain ⟨after, less⟩ := ready.advance (by rw [here]; exact real)
    exact .update_bind (.pure ⟨after, fun _ => less⟩)
  · rw [if_neg (by simpa using here)]
    exact .pure ⟨(disc most n room).refl ready, fun h => by cases h⟩

/-- A kind that is not the end. -/
class Real (k : Kind) : Prop where
  ne : k ≠ .eof

instance : Real .comma := ⟨by decide⟩
instance : Real .dot := ⟨by decide⟩
instance : Real .colon := ⟨by decide⟩
instance : Real .arrow := ⟨by decide⟩
instance : Real .assign := ⟨by decide⟩
instance : Real .bang := ⟨by decide⟩
instance : Real .question := ⟨by decide⟩
instance : Real .orOr := ⟨by decide⟩
instance : Real .andAnd := ⟨by decide⟩
instance : Real .lt := ⟨by decide⟩
instance : Real .gt := ⟨by decide⟩
instance : Real .lparen := ⟨by decide⟩
instance : Real .rparen := ⟨by decide⟩
instance : Real .lbrace := ⟨by decide⟩
instance : Real .rbrace := ⟨by decide⟩
instance : Real .lbracket := ⟨by decide⟩
instance : Real .rbracket := ⟨by decide⟩
instance {word : Keyword} : Real (.kw word) := ⟨by simp⟩

instance {k : Kind} [Real k] : Steady (disc most n room) (pEat k) where
  ends _ ready := (pEat_ends Real.ne ready).mono fun _ _ => And.left

instance : Steady (disc most n room) pTok := inferInstanceAs (Steady _ (ask _))
instance : Steady (disc most n room) pKind := inferInstanceAs (Steady _ (ask _))
instance : Steady (disc most n room) pKind2 := inferInstanceAs (Steady _ (ask _))
instance {k : Kind} : Steady (disc most n room) (pAt k) := inferInstanceAs (Steady _ (ask _))
instance : Steady (disc most n room) pAtEof := inferInstanceAs (Steady _ (ask _))
instance : Steady (disc most n room) pAtEnd := inferInstanceAs (Steady _ (ask _))
instance : Steady (disc most n room) pNlHere := inferInstanceAs (Steady _ (ask _))
instance : Steady (disc most n room) pNlTerm := inferInstanceAs (Steady _ (ask _))
instance : Steady (disc most n room) pNoRecord := inferInstanceAs (Steady _ (ask _))
instance {word : Keyword} : Steady (disc most n room) (pKw word) :=
  inferInstanceAs (Steady _ (ask _))
instance {word : Keyword} : Steady (disc most n room) (pKw2 word) :=
  inferInstanceAs (Steady _ (ask _))
instance {text : String} : Steady (disc most n room) (pIdentIs text) :=
  inferInstanceAs (Steady _ (ask _))

instance : Moves most n room pBump where
  ends p ready awake := by
    refine .update ?_
    rw [Parser.bump, if_neg awake]
    exact ready.advance awake

instance : Steady (disc most n room) pBump where
  ends p ready := by
    by_cases awake : p.kind = .eof
    · refine .update ?_
      rw [Parser.bump, if_pos awake]
      exact (disc most n room).refl ready
    · exact (Moves.ends p ready awake).mono fun _ _ => And.left

theorem Ready.fault {p : Parser} (ready : Ready most n room p) (msg : CString) :
    After most p (p.fault msg) ∧ (p.fault msg).toks = p.toks := by
  unfold Parser.fault
  split
  · exact ⟨(disc most n room).refl ready, rfl⟩
  · exact ⟨ready.frame rfl rfl rfl rfl, rfl⟩

instance {msg : Parser → CString} :
    Steady (disc most n room) (update fun p => p.fault (msg p) : P Unit) where
  ends p ready := .update (Ready.fault ready (msg p)).1

instance {msg : String} : Steady (disc most n room) (pError msg) :=
  inferInstanceAs (Steady _ (update fun p : Parser => p.fault (ascii msg) : P Unit))

instance {what : String} : Steady (disc most n room) (pErrorExpected what) :=
  inferInstanceAs (Steady _ (update fun p : Parser => p.fault (p.expectedFound what) : P Unit))

instance {k : Kind} {what : String} [Real k] : Steady (disc most n room) (pExpect k what) := by
  unfold pExpect
  infer_instance

instance {word : Keyword} : Steady (disc most n room) (pEatKw word) := by
  unfold pEatKw
  infer_instance

instance {word : Keyword} {what : String} : Steady (disc most n room) (pExpectKw word what) := by
  unfold pExpectKw
  infer_instance

instance : Steady (disc most n room) pIdent := by
  unfold pIdent
  infer_instance

instance : Steady (disc most n room) pMemberName := by
  unfold pMemberName
  infer_instance

instance : Steady (disc most n room) pGroupEnter :=
  steady_update (fun _ => rfl) (fun _ => rfl) (fun _ => rfl) fun _ => rfl

instance : Steady (disc most n room) pGroupLeave :=
  steady_update (fun _ => rfl) (fun _ => rfl) (fun _ => rfl) fun _ => rfl

instance {d : Nat} : Steady (disc most n room) (pBraceRestore d) :=
  steady_update (fun _ => rfl) (fun _ => rfl) (fun _ => rfl) fun _ => rfl

instance : Steady (disc most n room) pBraceSave := by
  have reset : Steady (disc most n room)
      (update fun p : Parser => { p with groupDepth := 0 } : P Unit) :=
    steady_update (fun _ => rfl) (fun _ => rfl) (fun _ => rfl) fun _ => rfl
  unfold pBraceSave
  infer_instance

instance {b : Bool} : Steady (disc most n room) (pSetNoRecord b) :=
  steady_update (fun _ => rfl) (fun _ => rfl) (fun _ => rfl) fun _ => rfl

instance {msg : String} : Steady (disc most n room) (pSep msg) := by
  unfold pSep
  infer_instance

instance {msg : String} : Steady (disc most n room) (pExpectClose msg) := by
  unfold pExpectClose
  infer_instance

instance {m : P α} [Steady (disc most n room) m] : Steady (disc most n room) (grouped m) := by
  unfold grouped
  infer_instance

instance {b : Bool} {m : P α} [Steady (disc most n room) m] :
    Steady (disc most n room) (optionally b m) := by
  unfold optionally
  infer_instance

instance {before : Nat} {ctx : String} : Steady (disc most n room) (pGuardProgress before ctx) := by
  unfold pGuardProgress
  infer_instance

/-- The guard has stepped over a token unless one was read before it. -/
theorem pGuardProgress_ends {ctx : String} {p q : Parser} (ready : Ready most n room q)
    (after : After most p q) (awake : p.kind ≠ .eof) :
    Ends (pGuardProgress p.pos ctx) q fun _ t =>
      After most q t ∧ t.toks.length < p.toks.length := by
  unfold pGuardProgress
  refine .ask_bind ?_
  have shorter := after.shorter
  have passed := after.pos_eq
  by_cases stuck : q.pos = p.pos
  · -- nothing was read, so the token is still the one the element started at
    rw [if_pos stuck]
    have same : q.toks = p.toks := after.suffix.eq_of_length (by omega)
    obtain ⟨faulted, kept⟩ := ready.fault (ascii ctx ++ ascii ": " ++ q.tokenFound)
    refine .update_bind (.mono (Moves.ends _ ((disc most n room).keeps ready faulted) ?_) ?_)
    · unfold Parser.kind Parser.tok at awake ⊢
      rwa [kept, same]
    · rintro _ t ⟨bumped, less⟩
      rw [kept, same] at less
      exact ⟨(disc most n room).trans faulted bumped, less⟩
  · rw [if_neg stuck]
    exact .pure ⟨(disc most n room).refl ready, by omega⟩

theorem Parser.enter_eq (p : Parser) :
    p.enter.toks = p.toks ∧ p.enter.pos = p.pos ∧ p.enter.depth = p.depth + 1 ∧
      p.enter.calls = p.calls := by
  unfold Parser.enter
  dsimp only
  split
  · exact ⟨rfl, rfl, rfl, rfl⟩
  · exact ⟨rfl, rfl, rfl, rfl⟩

/-- A level of nesting gives the calls under it their own stretch. -/
theorem Ready.enter {p : Parser} (ready : Ready most n room p) (below : p.enter.depth ≤ ceiling) :
    Ready most n stretch p.enter := by
  obtain ⟨toks, -, depth, calls⟩ := p.enter_eq
  obtain ⟨⟨ends, -, live, deepest, liveSubs, deepestSubs, subs, bounded⟩, level, toCome, fuel⟩ :=
    ready
  rw [← toks] at ends toCome
  rw [← calls] at live deepest liveSubs deepestSubs subs bounded level toCome fuel
  refine ⟨⟨ends, below, live, deepest, liveSubs, deepestSubs, subs, bounded⟩, ?_, toCome, fuel⟩
  rw [depth, Nat.mul_succ]
  omega

/-- Back from the level. -/
theorem Ready.leave {p q : Parser} (ready : Ready most n room p) (after : After most p.enter q) :
    After most p { q with depth := q.depth - 1 } := by
  obtain ⟨toks, pos, depth, calls⟩ := p.enter_eq
  obtain ⟨⟨ends, -, live, deepest, liveSubs, deepestSubs, subs, bounded⟩, depthEq, liveEq, subsEq,
    suffix, posEq, grows⟩ := after
  have back : q.depth - 1 = p.depth := by omega
  rw [calls] at liveEq subsEq grows
  rw [toks] at suffix posEq
  rw [pos] at posEq
  exact ⟨⟨ends, back ▸ ready.depth, live, deepest, liveSubs, deepestSubs, subs, bounded⟩, back,
    liveEq, subsEq, suffix, posEq, grows⟩

theorem pEnterNesting_ends (p : Parser) :
    Ends pEnterNesting p fun entered q => q = p.enter ∧ (entered = true ↔ q.depth ≤ ceiling) :=
  .update_bind (.ask ⟨rfl, decide_eq_true_iff⟩)

instance {inner : P α} {placeholder : α} [Steady (disc most n 7) inner] :
    Steady (disc most n room) (underCeiling inner placeholder) where
  ends p ready := by
    refine .bind (pEnterNesting_ends p) ?_
    rintro entered _ ⟨rfl, below⟩
    split
    · rename_i isEntered
      have inside : Ready most n 7 p.enter := Ready.enter ready (below.mp isEntered)
      refine .bind (Steady.ends (D := disc most n 7) _ inside) fun a q after => ?_
      exact .update_bind (.pure (Ready.leave ready after))
    · refine .update_bind (.pure ?_)
      have back : p.enter.depth - 1 = p.depth := by
        rw [p.enter_eq.2.2.1]
        rfl
      exact Ready.frame ready p.enter_eq.1 p.enter_eq.2.1 back p.enter_eq.2.2.2

/-! ### Loops -/

instance {turn : β → P (Turn β)} {b : β} [∀ b, Strides (disc most n room) (turn b)] :
    Steady (disc most n room) (pLoop turn b) :=
  inferInstanceAs (Steady _ (loop (disc most n room).left _ _ _))

/-- A loop that goes round again behind a token it has eaten. -/
instance {k : Kind} {m : P (Turn β)} {b : β} [Real k] [Steady (disc most n room) m] :
    Strides (disc most n room) (do if ← pEat k then m else return .stop b) where
  ends p ready := by
    refine .bind (pEat_ends Real.ne ready) fun eaten q ⟨after, less⟩ => ?_
    cases eaten with
    | false => exact .pure ⟨after, fun _ again => by cases again⟩
    | true =>
        have readyNow := (disc most n room).keeps ready after
        refine .mono (Steady.ends q readyNow) fun turn t afterNext => ?_
        refine ⟨(disc most n room).trans after afterNext, fun _ _ => ?_⟩
        exact Nat.lt_of_le_of_lt afterNext.shorter (less rfl)

/-- A loop that goes round again behind a construct its token opens. -/
instance {k : Kind} {m other : P (Turn β)} [Real k] [Moves most n room m]
    [Strides (disc most n room) other] :
    Strides (disc most n room) (do if ← pAt k then m else other) where
  ends p ready := by
    refine .ask_bind ?_
    by_cases here : p.kind = k
    · rw [if_pos (by simpa using here)]
      refine .mono (Moves.ends p ready (by rw [here]; exact Real.ne)) fun turn q ⟨after, less⟩ => ?_
      exact ⟨after, fun _ _ => less⟩
    · rw [if_neg (by simpa using here)]
      exact Strides.ends p ready

/-- A loop over the elements of a body goes round again behind a token, if need be the
one its guard steps over. -/
instance {ctx : String} {element : β → P β} {b : β} [Steady (disc most n room) (element b)] :
    Strides (disc most n room) (bodyTurn ctx element b) where
  ends p ready := by
    refine .ask_bind ?_
    split
    · exact .pure ⟨(disc most n room).refl ready, fun _ again => by cases again⟩
    refine .ask_bind ?_
    split
    · exact .pure ⟨(disc most n room).refl ready, fun _ again => by cases again⟩
    · rename_i notEnd
      have awake : p.kind ≠ .eof := by
        simp [Parser.atEnd] at notEnd
        exact notEnd.2
      refine .ask_bind (.bind (Steady.ends (D := disc most n room) p ready) fun b' q after => ?_)
      have readyNow := (disc most n room).keeps ready after
      refine .bind (pGuardProgress_ends readyNow after awake) fun _ t ⟨afterNext, less⟩ => ?_
      exact .pure ⟨(disc most n room).trans after afterNext, fun _ _ => less⟩

instance {ctx : String} {element : β → P β} {b : β} [∀ b, Steady (disc most n room) (element b)] :
    Steady (disc most n room) (bodyLoop ctx element b) := by
  unfold bodyLoop
  infer_instance

instance {element : P α} {seen : List α} [Steady (disc most n room) element] :
    Strides (disc most n room) (commaTurn element seen) := by
  unfold commaTurn
  infer_instance

instance {stops : P Bool} {element : P α} [Steady (disc most n room) stops]
    [Steady (disc most n room) element] : Steady (disc most n room) (commaLoop stops element) := by
  unfold commaLoop
  infer_instance

instance {close : Kind} {stops : P Bool} {element : P α} [Steady (disc most n room) stops]
    [Steady (disc most n room) element] :
    Steady (disc most n room) (commaList close stops element) := by
  unfold commaList
  infer_instance

/-! ### Calls -/

/-- A call has the room of its caller less one. -/
theorem Ready.called {p : Parser} (ready : Ready most (n + 1) (room + 1) p) :
    Ready most n room p.called ∧ p.called.calls.liveSubs + 1 < p.called.calls.live := by
  obtain ⟨⟨ends, depth, live, deepest, liveSubs, deepestSubs, subs, bounded⟩, level, toCome,
    fuel⟩ := ready
  have below : stretch * (p.depth + 1) ≤ depthBound :=
    Nat.mul_le_mul_left stretch (Nat.succ_le_succ depth)
  refine ⟨⟨⟨ends, depth, ?_, ?_, liveSubs, ?_, ?_, bounded⟩, ?_, toCome, ?_⟩, ?_⟩
  all_goals simp only [Parser.called]
  all_goals omega

/-- Back from a call. -/
theorem After.returned {p q : Parser} (after : After most p.called q)
    (subs : p.calls.liveSubs < p.calls.live) : After most p q.returned := by
  obtain ⟨⟨ends, depth, live, deepest, liveSubs, deepestSubs, -, bounded⟩, depthEq, liveEq, subsEq,
    suffix, posEq, grows⟩ := after
  simp only [Parser.called] at depthEq liveEq subsEq suffix posEq
  refine ⟨⟨ends, depth, ?_, deepest, liveSubs, deepestSubs, ?_, bounded⟩, depthEq, ?_, subsEq,
    suffix, posEq, grows⟩
  all_goals simp only [Parser.returned]
  all_goals omega

/-- A call ends as its body does. -/
theorem framed_ends {m : P α} {p : Parser} (post : Parser → Prop)
    (ready : Ready most (n + 1) (room + 1) p)
    (body : Ends m p.called fun _ q => After most p.called q ∧ post q)
    (returned : ∀ q, post q → post q.returned) :
    Ends (framed m) p fun _ q => After most p q ∧ post q := by
  refine .update_bind (.bind body fun a q ⟨after, holds⟩ => ?_)
  exact .update_bind (.pure ⟨after.returned ready.subs, returned q holds⟩)

theorem framed_steady {m : P α} (body : Steady (disc most n room) m) :
    Steady (disc most (n + 1) (room + 1)) (framed m) where
  ends p ready := by
    have inside : Ends m p.called fun _ q => After most p.called q ∧ True :=
      (body.ends _ (Ready.called ready).1).mono fun _ _ after => ⟨after, trivial⟩
    exact (framed_ends (fun _ => True) ready inside fun _ _ => trivial).mono fun _ _ => And.left

theorem framed_moves {m : P α} (body : Moves most n room m) :
    Moves most (n + 1) (room + 1) (framed m) where
  ends p ready awake := by
    have inside := body.ends p.called ready.called.1 awake
    exact framed_ends (fun q => q.toks.length < p.toks.length) ready inside fun _ => id

/-! ## The parse functions -/

/-- Every parse function is steady, given the room its calls take before the next level of
nesting. -/
class Good (most n : Nat) (r : Parsers) : Prop where
  type : ∀ room, Steady (disc most n (room + 1)) r.type
  typeInner : ∀ room, Steady (disc most n (room + 3)) r.typeInner
  typeArgs : ∀ room, Steady (disc most n (room + 2)) r.typeArgs
  pledgeType : ∀ room, Steady (disc most n (room + 2)) r.pledgeType
  params : ∀ room, Steady (disc most n (room + 2)) r.params
  expr : ∀ room, Steady (disc most n (room + 2)) r.expr
  exprNoRecord : ∀ room, Steady (disc most n (room + 2)) r.exprNoRecord
  bin : ∀ room minBp, Steady (disc most n (room + 1)) (r.bin minBp)
  binInner : ∀ room minBp, Steady (disc most n (room + 2)) (r.binInner minBp)
  unary : ∀ room, Steady (disc most n (room + 1)) r.unary
  unaryInner : ∀ room, Steady (disc most n (room + 7)) r.unaryInner
  postfixExpr : ∀ room, Steady (disc most n (room + 6)) r.postfixExpr
  callArgs : ∀ room, Steady (disc most n (room + 4)) r.callArgs
  arg : ∀ room, Steady (disc most n (room + 3)) r.arg
  primary : ∀ room, Steady (disc most n (room + 5)) r.primary
  mutExpr : ∀ room, Steady (disc most n (room + 3)) r.mutExpr
  paren : ∀ room, Steady (disc most n (room + 3)) r.paren
  list : ∀ room, Steady (disc most n (room + 3)) r.list
  identPrimary : ∀ room t, Steady (disc most n (room + 4)) (r.identPrimary t)
  recordLit : ∀ room name, Steady (disc most n (room + 3)) (r.recordLit name)
  matchExpr : ∀ room, Steady (disc most n (room + 3)) r.matchExpr
  pattern : ∀ room, Steady (disc most n (room + 1)) r.pattern
  patternInner : ∀ room, Steady (disc most n (room + 3)) r.patternInner
  variantPattern : ∀ room, Steady (disc most n (room + 2)) r.variantPattern
  block : ∀ room, Steady (disc most n (room + 1)) r.block
  stmt : ∀ room, Steady (disc most n (room + 4)) r.stmt
  letStmt : ∀ room, Steady (disc most n (room + 3)) r.letStmt
  returnStmt : ∀ room, Steady (disc most n (room + 3)) r.returnStmt
  ifStmt : ∀ room, Steady (disc most n (room + 3)) r.ifStmt
  whileStmt : ∀ room, Steady (disc most n (room + 3)) r.whileStmt
  forStmt : ∀ room, Steady (disc most n (room + 3)) r.forStmt
  import_ : ∀ room, Steady (disc most n (room + 1)) r.import_
  decl : ∀ room, Steady (disc most n (room + 6)) r.decl
  record : ∀ room, Steady (disc most n (room + 2)) r.record
  sum : ∀ room, Steady (disc most n (room + 3)) r.sum
  variant : ∀ room, Steady (disc most n (room + 2)) r.variant
  prov : ∀ room internal, Steady (disc most n (room + 3)) (r.prov internal)
  contract : ∀ room internal, Steady (disc most n (room + 5)) (r.contract internal)
  member : ∀ room, Steady (disc most n (room + 4)) r.member
  schema : ∀ room, Steady (disc most n (room + 2)) r.schema
  pledge : ∀ room, Steady (disc most n (room + 3)) r.pledge
  clause : ∀ room, Steady (disc most n (room + 3)) r.clause
  attrs : ∀ room, Steady (disc most n (room + 1)) r.attrs
  requirements : ∀ room, Steady (disc most n (room + 3)) r.requirements
  reqLine : ∀ room, Steady (disc most n (room + 2)) r.reqLine
  reqOr : ∀ room, Steady (disc most n (room + 1)) r.reqOr
  reqOrInner : ∀ room, Steady (disc most n (room + 5)) r.reqOrInner
  reqAnd : ∀ room, Steady (disc most n (room + 4)) r.reqAnd
  reqNot : ∀ room, Steady (disc most n (room + 3)) r.reqNot
  reqAtom : ∀ room, Steady (disc most n (room + 2)) r.reqAtom
  subcontract : ∀ room p, Ready most n (room + 3) p → p.kind = .kw .subcontract →
    Ends r.subcontract p fun _ q => After most p q
  callArgs_moves : ∀ room, Moves most n (room + 4) r.callArgs
  import_moves : ∀ room, Moves most n (room + 1) r.import_

attribute [instance] Good.type Good.typeInner Good.typeArgs Good.pledgeType Good.params Good.expr
  Good.exprNoRecord Good.bin Good.binInner Good.unary Good.unaryInner Good.postfixExpr
  Good.callArgs Good.arg Good.primary Good.mutExpr Good.paren Good.list Good.identPrimary
  Good.recordLit Good.matchExpr Good.pattern Good.patternInner Good.variantPattern
  Good.block Good.stmt Good.letStmt Good.returnStmt Good.ifStmt Good.whileStmt
  Good.forStmt Good.import_ Good.decl Good.record Good.sum Good.variant Good.prov
  Good.contract Good.member Good.schema Good.pledge Good.clause
  Good.attrs Good.requirements Good.reqLine Good.reqOr Good.reqOrInner Good.reqAnd
  Good.reqNot Good.reqAtom Good.callArgs_moves Good.import_moves

set_option synthInstance.maxSize 1000

section Bodies

variable {r : Parsers} [Good most n r]

/-! ### Types -/

theorem parseType_steady : Steady (disc most n room) (parseType r) := by
  unfold parseType
  infer_instance

theorem parseTypeInner_steady : Steady (disc most n (room + 2)) (parseTypeInner r) := by
  unfold parseTypeInner
  infer_instance

theorem parseTypeArgs_steady : Steady (disc most n (room + 1)) (parseTypeArgs r) := by
  unfold parseTypeArgs
  infer_instance

instance {msg : String} : Steady (disc most n (room + 1)) (arrowType r msg) := by
  unfold arrowType
  infer_instance

instance {what : String} : Steady (disc most n (room + 1)) (fieldDecl r what) := by
  unfold fieldDecl
  infer_instance

theorem parsePledgeType_steady : Steady (disc most n (room + 1)) (parsePledgeType r) := by
  unfold parsePledgeType
  infer_instance

theorem parseParams_steady : Steady (disc most n (room + 1)) (parseParams r) := by
  unfold parseParams
  infer_instance

/-! ### Expressions -/

theorem parseExpr_steady : Steady (disc most n (room + 1)) (parseExpr r) := by
  unfold parseExpr
  infer_instance

theorem parseExprNoRecord_steady : Steady (disc most n (room + 1)) (parseExprNoRecord r) := by
  unfold parseExprNoRecord
  infer_instance

theorem parseBin_steady {minBp : Nat} : Steady (disc most n room) (parseBin r minBp) := by
  unfold parseBin
  infer_instance

/-- The operator is read before its right side. -/
instance {minBp : Nat} {lhs : Expr} : Strides (disc most n (room + 1)) (binTurn r minBp lhs) := by
  refine ⟨fun p ready => .ask_bind ?_⟩
  split
  · exact Strides.ends p ready
  refine .ask_bind ?_
  split
  · exact Strides.ends p ready
  · rename_i op isOp
    split
    · exact Strides.ends p ready
    · have awake : p.kind ≠ .eof := by
        intro atEof
        rw [atEof] at isOp
        cases isOp
      have moves : Moves most n (room + 1) (do
          pBump
          let rhs ← r.bin (binLbp op + 1)
          return .again (.binary op lhs rhs) : P (Turn Expr)) := inferInstance
      exact (moves.ends p ready awake).mono fun _ _ ⟨after, less⟩ => ⟨after, fun _ _ => less⟩

theorem parseBinInner_steady {minBp : Nat} :
    Steady (disc most n (room + 1)) (parseBinInner r minBp) := by
  unfold parseBinInner
  infer_instance

theorem parseUnary_steady : Steady (disc most n room) (parseUnary r) := by
  unfold parseUnary
  infer_instance

theorem parseUnaryInner_steady : Steady (disc most n (room + 6)) (parseUnaryInner r) := by
  unfold parseUnaryInner
  refine .bind inferInstance fun _ => ?_
  split
  · infer_instance
  · infer_instance

instance {e : Expr} : Strides (disc most n (room + 5)) (postfixTurn r e) := by
  unfold postfixTurn
  infer_instance

theorem parsePostfix_steady : Steady (disc most n (room + 5)) (parsePostfix r) := by
  unfold parsePostfix
  infer_instance

theorem parseCallArgs_steady : Steady (disc most n (room + 3)) (parseCallArgs r) := by
  unfold parseCallArgs
  infer_instance

theorem parseCallArgs_moves : Moves most n (room + 3) (parseCallArgs r) := by
  unfold parseCallArgs
  infer_instance

instance : Steady (disc most n room) argLabel := by
  unfold argLabel
  infer_instance

theorem parseArg_steady : Steady (disc most n (room + 2)) (parseArg r) := by
  unfold parseArg
  infer_instance

instance : Steady (disc most n room) parseLiteralExpr := by
  unfold parseLiteralExpr
  refine .bind inferInstance fun _ => ?_
  split
  · infer_instance
  · infer_instance

instance {t : Token} : Steady (disc most n (room + 4)) (primaryByToken r t) := by
  unfold primaryByToken
  split
  all_goals infer_instance

theorem parsePrimary_steady : Steady (disc most n (room + 4)) (parsePrimary r) := by
  unfold parsePrimary
  refine .bind inferInstance fun t => .bind inferInstance fun literal => ?_
  split
  · infer_instance
  · infer_instance

theorem parseMutExpr_steady : Steady (disc most n (room + 2)) (parseMutExpr r) := by
  unfold parseMutExpr
  infer_instance

instance {seen : List Expr} : Strides (disc most n (room + 2)) (tupleTurn r seen) := by
  unfold tupleTurn
  infer_instance

instance : Steady (disc most n (room + 2)) (parenElems r) := by
  unfold parenElems
  infer_instance

theorem parseParen_steady : Steady (disc most n (room + 2)) (parseParen r) := by
  unfold parseParen
  infer_instance

theorem parseList_steady : Steady (disc most n (room + 2)) (parseList r) := by
  unfold parseList
  infer_instance

instance {t : Token} : Steady (disc most n (room + 3)) (parseName r t) := by
  unfold parseName
  infer_instance

theorem parseIdentPrimary_steady {t : Token} :
    Steady (disc most n (room + 3)) (parseIdentPrimary r t) := by
  unfold parseIdentPrimary
  refine .bind inferInstance fun _ => ?_
  split
  · infer_instance
  · infer_instance

instance : Steady (disc most n (room + 2)) (recordField r) := by
  unfold recordField
  infer_instance

theorem parseRecordLit_steady {name : CString} :
    Steady (disc most n (room + 2)) (parseRecordLit r name) := by
  unfold parseRecordLit
  infer_instance

instance : Steady (disc most n room) armArrow := by
  unfold armArrow
  infer_instance

instance : Steady (disc most n (room + 2)) (matchArm r) := by
  unfold matchArm
  infer_instance

theorem parseMatchExpr_steady : Steady (disc most n (room + 2)) (parseMatchExpr r) := by
  unfold parseMatchExpr
  infer_instance

/-! ### Patterns -/

theorem parsePattern_steady : Steady (disc most n room) (parsePattern r) := by
  unfold parsePattern
  infer_instance

instance {t : Token} : Steady (disc most n (room + 2)) (identPattern r t) := by
  unfold identPattern
  refine .bind inferInstance fun _ => ?_
  split
  · split
    · infer_instance
    · infer_instance
  · infer_instance

theorem parsePatternInner_steady : Steady (disc most n (room + 2)) (parsePatternInner r) := by
  unfold parsePatternInner
  refine .bind inferInstance fun t => ?_
  split
  · infer_instance
  · refine .bind inferInstance fun literal => ?_
    split
    · infer_instance
    · infer_instance

theorem parseVariantPattern_steady : Steady (disc most n (room + 1)) (parseVariantPattern r) := by
  unfold parseVariantPattern
  infer_instance

/-! ### Statements -/

theorem parseBlock_steady : Steady (disc most n room) (parseBlock r) := by
  unfold parseBlock
  infer_instance

instance : Steady (disc most n (room + 2)) (exprStmt r) := by
  unfold exprStmt
  infer_instance

theorem parseStmt_steady : Steady (disc most n (room + 3)) (parseStmt r) := by
  unfold parseStmt
  refine .bind inferInstance fun _ => ?_
  split
  all_goals infer_instance

theorem parseLetStmt_steady : Steady (disc most n (room + 2)) (parseLetStmt r) := by
  unfold parseLetStmt
  infer_instance

theorem parseReturnStmt_steady : Steady (disc most n (room + 2)) (parseReturnStmt r) := by
  unfold parseReturnStmt
  infer_instance

instance : Steady (disc most n (room + 1)) (elseBranch r) := by
  unfold elseBranch
  infer_instance

theorem parseIfStmt_steady : Steady (disc most n (room + 2)) (parseIfStmt r) := by
  unfold parseIfStmt
  infer_instance

theorem parseWhileStmt_steady : Steady (disc most n (room + 2)) (parseWhileStmt r) := by
  unfold parseWhileStmt
  infer_instance

theorem parseForStmt_steady : Steady (disc most n (room + 2)) (parseForStmt r) := by
  unfold parseForStmt
  infer_instance

/-! ### Requirements -/

theorem parseReqOr_steady : Steady (disc most n room) (parseReqOr r) := by
  unfold parseReqOr
  infer_instance

instance {k : Kind} {combine : Formula CString → Formula CString → Formula CString}
    {operand : P (Formula CString)} {lhs : Formula CString} [Real k]
    [Steady (disc most n room) operand] :
    Strides (disc most n room) (chainTurn k combine operand lhs) := by
  unfold chainTurn
  infer_instance

theorem parseReqOrInner_steady : Steady (disc most n (room + 4)) (parseReqOrInner r) := by
  unfold parseReqOrInner
  infer_instance

theorem parseReqAnd_steady : Steady (disc most n (room + 3)) (parseReqAnd r) := by
  unfold parseReqAnd
  infer_instance

theorem parseReqNot_steady : Steady (disc most n (room + 2)) (parseReqNot r) := by
  unfold parseReqNot
  infer_instance

theorem parseReqAtom_steady : Steady (disc most n (room + 1)) (parseReqAtom r) := by
  unfold parseReqAtom
  infer_instance

theorem parseReqLine_steady : Steady (disc most n (room + 1)) (parseReqLine r) := by
  unfold parseReqLine
  infer_instance

instance {seen : Option (Formula CString)} {msg : String} :
    Steady (disc most n (room + 2)) (reqLabel r seen msg) := by
  unfold reqLabel
  refine .bind inferInstance fun _ => .bind inferInstance fun line => ?_
  split
  · infer_instance
  · infer_instance

instance {block : ReqBlockNode} : Steady (disc most n (room + 2)) (reqElement r block) := by
  unfold reqElement
  infer_instance

theorem parseRequirements_steady : Steady (disc most n (room + 2)) (parseRequirements r) := by
  unfold parseRequirements
  infer_instance

/-! ### Declarations and members -/

instance {path : CString} : Strides (disc most n room) (importTurn path) := by
  unfold importTurn
  infer_instance

theorem parseImport_steady : Steady (disc most n room) parseImport := by
  unfold parseImport
  infer_instance

theorem parseImport_moves : Moves most n room parseImport := by
  unfold parseImport
  infer_instance

instance {ctx : String} {element : P α} [Steady (disc most n room) element] :
    Steady (disc most n room) (bodyList ctx element) := by
  unfold bodyList
  infer_instance

instance : Steady (disc most n (room + 1)) (recordFieldDecl r) := by
  unfold recordFieldDecl
  infer_instance

theorem parseRecord_steady : Steady (disc most n (room + 1)) (parseRecord r) := by
  unfold parseRecord
  infer_instance

instance {vars : List VariantNode} : Strides (disc most n (room + 2)) (sumTurn r vars) := by
  unfold sumTurn
  refine ⟨fun p ready => .ask_bind ?_⟩
  split
  · rename_i here
    refine .ask_bind ?_
    split
    · exact Strides.ends p ready
    · have awake : p.kind ≠ .eof := by
        simp only [decide_eq_true_eq] at here
        rw [here]
        exact Real.ne
      have moves : Moves most n (room + 2) (do
          pBump
          let v ← r.variant
          return .again (vars ++ [v]) : P (Turn (List VariantNode))) := inferInstance
      exact (moves.ends p ready awake).mono fun _ _ ⟨after, less⟩ => ⟨after, fun _ _ => less⟩
  · exact Strides.ends p ready

theorem parseVariant_steady : Steady (disc most n (room + 1)) (parseVariant r) := by
  unfold parseVariant
  infer_instance

theorem parseSum_steady : Steady (disc most n (room + 2)) (parseSum r) := by
  unfold parseSum
  infer_instance

instance {sigs : List ClauseSigNode} : Steady (disc most n (room + 2)) (clauseSig r sigs) := by
  unfold clauseSig
  infer_instance

theorem parseProv_steady {internal : Bool} :
    Steady (disc most n (room + 2)) (parseProv r internal) := by
  unfold parseProv
  infer_instance

instance {k : Kind} {m : P α} [Steady (disc most n room) m] :
    Steady (disc most n room) (onThisLine k m) := by
  unfold onThisLine
  infer_instance

instance {members : List Member} : Steady (disc most n (room + 4)) (memberElement r members) := by
  unfold memberElement
  infer_instance

theorem parseContract_steady {internal : Bool} :
    Steady (disc most n (room + 4)) (parseContract r internal) := by
  unfold parseContract
  infer_instance

theorem parseMember_steady : Steady (disc most n (room + 3)) (parseMember r) := by
  unfold parseMember
  refine ⟨fun p ready => .ask_bind ?_⟩
  split
  case h_5 here =>
    exact .bind (Good.subcontract room p ready here) fun _ _ after => .pure after
  all_goals exact Steady.ends p ready

instance : Steady (disc most n (room + 1)) (schemaColumn r) := by
  unfold schemaColumn
  infer_instance

theorem parseSchema_steady : Steady (disc most n (room + 1)) (parseSchema r) := by
  unfold parseSchema
  infer_instance

theorem parsePledge_steady : Steady (disc most n (room + 2)) (parsePledge r) := by
  unfold parsePledge
  infer_instance

theorem parseClause_steady : Steady (disc most n (room + 2)) (parseClause r) := by
  unfold parseClause
  refine .bind inferInstance fun _ => .bind inferInstance fun _ => .bind inferInstance fun _ =>
    .bind inferInstance fun _ => .bind inferInstance fun body => ?_
  split
  · infer_instance
  · infer_instance

instance {pledges : List PledgeNode} : Steady (disc most n (room + 3)) (subElement r pledges) := by
  unfold subElement
  refine ⟨fun p ready => .ask_bind ?_⟩
  split
  · exact Steady.ends p ready
  refine .ask_bind ?_
  split
  · rename_i here
    obtain ⟨faulted, kept⟩ :=
      Ready.fault ready (ascii "a subcontract cannot contain another subcontract")
    have readyNow := (disc most n (room + 3)).keeps ready faulted
    refine .update_bind (.bind (Good.subcontract room _ readyNow ?_) fun _ q after => ?_)
    · have here : p.kind = .kw .subcontract := by simpa using here
      unfold Parser.kind Parser.tok at here ⊢
      rwa [kept]
    · exact .pure ((disc most n (room + 3)).trans faulted after)
  · exact Steady.ends p ready

instance : Steady (disc most n (room + 3)) (subcontractRest r) := by
  unfold subcontractRest
  infer_instance

instance : Steady (disc most n room) attrKey := by
  unfold attrKey
  infer_instance

instance : Steady (disc most n room) parseAttr := by
  unfold parseAttr
  refine .bind inferInstance fun _ => .bind inferInstance fun _ => .bind inferInstance fun val => ?_
  split
  · infer_instance
  · infer_instance

theorem parseAttrs_steady : Steady (disc most n room) parseAttrs := by
  unfold parseAttrs
  infer_instance

instance : Steady (disc most n (room + 5)) (internalDecl r) := by
  unfold internalDecl
  refine .bind inferInstance fun _ => .bind inferInstance fun _ => ?_
  split
  all_goals infer_instance

instance : Steady (disc most n (room + 5)) (namedDecl r) := by
  unfold namedDecl
  infer_instance

theorem parseDecl_steady : Steady (disc most n (room + 5)) (parseDecl r) := by
  unfold parseDecl
  refine .bind inferInstance fun _ => ?_
  split
  all_goals infer_instance

instance {imports : List CString} : Strides (disc most n (room + 6)) (headTurn r imports) := by
  unfold headTurn
  exact inferInstanceAs (Strides _ (pAt (.kw .import_) >>= _))

instance {file : File} : Strides (disc most n (room + 6)) (declTurn r file) := by
  refine ⟨fun p ready => .ask_bind ?_⟩
  split
  · exact Strides.ends p ready
  · rename_i notEnd
    have awake : p.kind ≠ .eof := by
      simp [Parser.atEnd] at notEnd
      exact notEnd.2
    let D := disc most n (room + 6)
    refine .ask_bind (.bind (Steady.ends (D := D) p ready) fun d q parsed => ?_)
    refine .bind (Steady.ends (D := D) q (D.keeps ready parsed)) fun _ t separated => ?_
    have after := D.trans parsed separated
    have readyNow := D.keeps ready after
    refine .bind (pGuardProgress_ends readyNow after awake) fun _ u ⟨guarded, less⟩ => ?_
    exact .pure ⟨D.trans after guarded, fun _ _ => less⟩

theorem parseFile_steady : Steady (disc most n (room + 6)) (parseFile r) := by
  unfold parseFile
  infer_instance

/-! ### Subcontracts -/

/-- A subcontract has one open call more to its name, and one keyword less to come. -/
theorem Ready.subOpened {p q : Parser} (ready : Ready most n (room + 2) p) (after : After most p q)
    (subs : p.calls.liveSubs + 1 < p.calls.live)
    (fewer : subKeywords q.toks + 1 ≤ subKeywords p.toks) :
    Ready most n (room + 3) q.subOpened := by
  obtain ⟨⟨ends, depth, live, deepest, liveSubs, deepestSubs, -, bounded⟩, depthEq, liveEq, subsEq,
    -, -, -⟩ := after
  obtain ⟨-, level, toCome, fuel⟩ := ready
  have atDepth : stretch * (q.depth + 1) = stretch * (p.depth + 1) := by rw [depthEq]
  refine ⟨⟨ends, depth, live, ?_, ?_, ?_, ?_, ?_⟩, ?_, ?_, ?_⟩
  all_goals simp only [Parser.subOpened]
  all_goals omega

theorem After.subClosed {p q : Parser} (after : After most p.subOpened q) :
    After most p q.subClosed := by
  obtain ⟨⟨ends, depth, live, deepest, liveSubs, deepestSubs, subs, bounded⟩, depthEq, liveEq,
    subsEq, suffix, posEq, grows⟩ := after
  simp only [Parser.subOpened] at depthEq liveEq subsEq suffix posEq grows
  refine ⟨⟨ends, depth, live, deepest, ?_, deepestSubs, ?_, bounded⟩, depthEq, liveEq, ?_, suffix,
    posEq, ?_⟩
  all_goals simp only [Parser.subClosed]
  all_goals omega

theorem subKeywords_bump {p : Parser} (here : p.kind = .kw .subcontract) :
    subKeywords p.bump.toks + 1 ≤ subKeywords p.toks := by
  have awake : p.kind ≠ .eof := by rw [here]; exact Real.ne
  rw [Parser.bump, if_neg awake]
  cases toks : p.toks with
  | nil =>
      simp [Parser.kind, Parser.tok, toks, eofToken] at here
  | cons t rest =>
      have isSub : t.kind = .kw .subcontract := by simpa [Parser.kind, Parser.tok, toks] using here
      simp [subKeywords, Parser.advance, toks, isSub]

theorem parseSubcontract_ends {p : Parser} (ready : Ready most n (room + 2) p)
    (here : p.kind = .kw .subcontract) (subs : p.calls.liveSubs + 1 < p.calls.live) :
    Ends (parseSubcontract r) p fun _ q => After most p q := by
  let D := disc most n (room + 2)
  have bumped : After most p p.bump := by
    obtain ⟨_, _, runs, after⟩ := Steady.ends (D := D) (m := pBump) p ready
    cases runs
    exact after
  have inside := ready.subOpened bumped subs (subKeywords_bump here)
  refine .update_bind (.update_bind (.bind (Steady.ends (D := disc most n (room + 3)) _ inside) ?_))
  intro _ q after
  exact .update_bind (.pure (D.trans bumped after.subClosed))

end Bodies

/-! ## The knot -/

theorem not_ready_zero {p : Parser} : ¬Ready most 0 room p := by
  rintro ⟨⟨-, depth, -, -, -, -, -, -⟩, level, toCome, fuel⟩
  have below : stretch * (p.depth + 1) ≤ depthBound :=
    Nat.mul_le_mul_left stretch (Nat.succ_le_succ depth)
  omega

theorem steady_zero {m : P α} : Steady (disc most 0 room) m where
  ends _ ready := absurd ready not_ready_zero

theorem moves_zero {m : P α} : Moves most 0 room m where
  ends _ ready := absurd ready not_ready_zero

theorem good_zero (r : Parsers) : Good most 0 r := by
  constructor
  case subcontract => exact fun _ _ ready => absurd ready not_ready_zero
  case callArgs_moves => exact fun _ => moves_zero
  case import_moves => exact fun _ => moves_zero
  all_goals intros
  all_goals exact steady_zero

/-- Every parse function keeps the discipline, whatever room it has. -/
theorem good (most n : Nat) : Good most n (parsers n) := by
  induction n with
  | zero => exact good_zero _
  | succ n ih =>
      exact
      { type _ := framed_steady parseType_steady
        typeInner _ := framed_steady parseTypeInner_steady
        typeArgs _ := framed_steady parseTypeArgs_steady
        pledgeType _ := framed_steady parsePledgeType_steady
        params _ := framed_steady parseParams_steady
        expr _ := framed_steady parseExpr_steady
        exprNoRecord _ := framed_steady parseExprNoRecord_steady
        bin _ _ := framed_steady parseBin_steady
        binInner _ _ := framed_steady parseBinInner_steady
        unary _ := framed_steady parseUnary_steady
        unaryInner _ := framed_steady parseUnaryInner_steady
        postfixExpr _ := framed_steady parsePostfix_steady
        callArgs _ := framed_steady parseCallArgs_steady
        arg _ := framed_steady parseArg_steady
        primary _ := framed_steady parsePrimary_steady
        mutExpr _ := framed_steady parseMutExpr_steady
        paren _ := framed_steady parseParen_steady
        list _ := framed_steady parseList_steady
        identPrimary _ _ := framed_steady parseIdentPrimary_steady
        recordLit _ _ := framed_steady parseRecordLit_steady
        matchExpr _ := framed_steady parseMatchExpr_steady
        pattern _ := framed_steady parsePattern_steady
        patternInner _ := framed_steady parsePatternInner_steady
        variantPattern _ := framed_steady parseVariantPattern_steady
        block _ := framed_steady parseBlock_steady
        stmt _ := framed_steady parseStmt_steady
        letStmt _ := framed_steady parseLetStmt_steady
        returnStmt _ := framed_steady parseReturnStmt_steady
        ifStmt _ := framed_steady parseIfStmt_steady
        whileStmt _ := framed_steady parseWhileStmt_steady
        forStmt _ := framed_steady parseForStmt_steady
        import_ _ := framed_steady parseImport_steady
        decl _ := framed_steady parseDecl_steady
        record _ := framed_steady parseRecord_steady
        sum _ := framed_steady parseSum_steady
        variant _ := framed_steady parseVariant_steady
        prov _ _ := framed_steady parseProv_steady
        contract _ _ := framed_steady parseContract_steady
        member _ := framed_steady parseMember_steady
        schema _ := framed_steady parseSchema_steady
        pledge _ := framed_steady parsePledge_steady
        clause _ := framed_steady parseClause_steady
        attrs _ := framed_steady parseAttrs_steady
        requirements _ := framed_steady parseRequirements_steady
        reqLine _ := framed_steady parseReqLine_steady
        reqOr _ := framed_steady parseReqOr_steady
        reqOrInner _ := framed_steady parseReqOrInner_steady
        reqAnd _ := framed_steady parseReqAnd_steady
        reqNot _ := framed_steady parseReqNot_steady
        reqAtom _ := framed_steady parseReqAtom_steady
        subcontract _ p ready here := by
          have called := Ready.called ready
          have inside : Ends (parseSubcontract (parsers n)) p.called fun _ q =>
              After most p.called q ∧ True :=
            (parseSubcontract_ends called.1 here called.2).mono fun _ _ after => ⟨after, trivial⟩
          have ended := framed_ends (fun _ => True) ready inside fun _ _ => trivial
          exact ended.mono fun _ _ => And.left
        callArgs_moves _ := framed_moves parseCallArgs_moves
        import_moves _ := framed_moves parseImport_moves }

end Geas.Compiler.Parse
