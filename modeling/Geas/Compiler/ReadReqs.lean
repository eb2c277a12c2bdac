import Geas.Compiler.ReadBack

/-!
# Printed requirement expressions are read back

The ladder of requirement expressions has three rungs, `||`, `&&` and `!`, over names and
parentheses.  Its two chains are loops like those of expressions.
-/

namespace Geas.Compiler.Parse

open Geas.Lib Geas.Lib.Descent
open Geas.Runtime (CString ascii)
open Filter (atTop)

/-! ## Printing -/

/-- How tightly a requirement expression holds together. -/
def reqPower : Formula CString → Nat
  | .or _ _ => 1
  | .and _ _ => 2
  | .not _ => 3
  | .atom _ => 4

/-- An operand where only expressions of power `atLeast` may stand bare. -/
def reqFit {α : Type} (atLeast : Nat) (e : Formula CString) (bare inside : α) : α :=
  if reqPower e < atLeast then inside else bare

/-- The tokens of a requirement expression. -/
def reqToks : Formula CString → List Token
  | .atom name => [word name]
  | .not e => sym .bang :: reqFit 4 e (reqToks e) (inParens (reqToks e))
  | .and left right =>
      reqFit 2 left (reqToks left) (inParens (reqToks left)) ++
        sym .andAnd :: reqFit 3 right (reqToks right) (inParens (reqToks right))
  | .or left right =>
      reqFit 1 left (reqToks left) (inParens (reqToks left)) ++
        sym .orOr :: reqFit 2 right (reqToks right) (inParens (reqToks right))

/-- The levels a parse of a requirement expression opens inside the `parse_req_or` that
reads it: one for each pair of parentheses. -/
def reqLevels : Formula CString → Nat
  | .atom _ => 0
  | .not e => reqFit 4 e (reqLevels e) (1 + reqLevels e)
  | .and left right =>
      max (reqFit 2 left (reqLevels left) (1 + reqLevels left))
        (reqFit 3 right (reqLevels right) (1 + reqLevels right))
  | .or left right =>
      max (reqFit 1 left (reqLevels left) (1 + reqLevels left))
        (reqFit 2 right (reqLevels right) (1 + reqLevels right))

/-- The names of a requirement expression are identifiers. -/
def ReqSpelled (e : Formula CString) : Prop := ∀ name ∈ e.atoms, IsIdent name

/-- What may follow a requirement expression: no operator that would go on with it. -/
def EndsReq (g : Nat) (t : Token) : Prop := Breaks g t ∨ (t.kind ≠ .orOr ∧ t.kind ≠ .andAnd)

/-! ## The two chains -/

section Chains

variable {k : Kind} {combine : Formula CString → Formula CString → Formula CString}
  {operand : P (Formula CString)} {e : Formula CString} {p : Parser}

/-- A chain ends before a token that is not its operator. -/
theorem chainTurn_stops (running : p.hitDepthLimit = false)
    (ends : Breaks p.groupDepth p.tok ∨ p.kind ≠ k) :
    Gives (chainTurn k combine operand e) (.stop e) [] p := by
  by_cases breaks : Breaks p.groupDepth p.tok
  · exact .here (pNlTerm_yes breaks) .pure
  · refine .here (pNlTerm_no running breaks) ?_
    exact (Gives.eatNot (ends.resolve_left breaks)).bind fun _ _ => .pure

/-- A chain goes on with its operator and one operand more. -/
theorem chainTurn_again {flag : Bool} {levels : Nat} {e' : Formula CString} {toks rest : List Token}
    (before : Before flag levels (sym k :: toks) rest p)
    (given : ∀ q, q.groupDepth = p.groupDepth → Before flag levels toks rest q →
      Gives operand e' toks q) :
    Gives (chainTurn k combine operand e) (.again (combine e e')) (sym k :: toks) p := by
  refine .here (before.goesOn rfl) ?_
  refine (Gives.eat before rfl).one before fun q group before => ?_
  exact (given q group before).map

end Chains

/-- The tokens are read back as `e` wherever a requirement expression of the power `pw` may
stand bare. -/
structure ReqPrinted (flag : Bool) (pw levels : Nat) (toks : List Token) (e : Formula CString) :
    Prop where
  ors : ∀ᶠ n in atTop, ∀ p rest, Before flag levels toks rest p →
    (Breaks p.groupDepth (next rest) ∨ (next rest).kind ≠ .andAnd) →
    Leads (parseReqOrInner (parsers n)) (pLoop (chainTurn .orOr .or (parsers n).reqAnd) e) toks p
  ands : 2 ≤ pw → ∀ᶠ n in atTop, ∀ p rest, Before flag levels toks rest p →
    Leads (parseReqAnd (parsers n)) (pLoop (chainTurn .andAnd .and (parsers n).reqNot) e) toks p
  nots : 3 ≤ pw → Parses (·.reqNot) e flag levels toks fun _ _ => True
  atoms : 4 ≤ pw → Parses (·.reqAtom) e flag levels toks fun _ _ => True

namespace ReqPrinted

variable {flag : Bool} {pw pw' levels levels' : Nat} {toks toks' : List Token}
  {e e' : Formula CString}

/-- An operand of `||`. -/
theorem reqAnd_of_ands
    (ands : ∀ᶠ n in atTop, ∀ p rest, Before flag levels toks rest p →
      Leads (parseReqAnd (parsers n)) (pLoop (chainTurn .andAnd .and (parsers n).reqNot) e) toks p) :
    Parses (·.reqAnd) e flag levels toks fun g t => Breaks g t ∨ t.kind ≠ .andAnd := by
  refine .call parseReqAnd (fun _ => rfl) ?_
  refine ands.mono fun n leads p rest before follows => ?_
  refine ((leads p rest before).gives fun q reads => ?_).cast (List.append_nil _)
  have behind := before.done reads
  refine .loop_stop (chainTurn_stops behind.running ?_)
  rw [reads.groupDepth, behind.tok_of_nil, behind.kind_of_nil]
  exact follows

theorem reqOr (printed : ReqPrinted flag pw levels toks e) :
    Parses (·.reqOr) e flag (levels + 1) toks EndsReq := by
  refine .call parseReqOr (fun _ => rfl) (.underCeiling ?_)
  refine .call parseReqOrInner (fun _ => rfl) ?_
  refine Filter.Eventually.mono printed.ors fun n leads p rest before follows => ?_
  refine ((leads p rest before (follows.imp_right And.right)).gives fun q reads => ?_).cast
    (List.append_nil _)
  have behind := before.done reads
  refine .loop_stop (chainTurn_stops behind.running ?_)
  rw [reads.groupDepth, behind.tok_of_nil, behind.kind_of_nil]
  exact follows.imp_right And.left

/-- Everything tighter than `||` opens its chain. -/
theorem of_ands
    (ands : ∀ᶠ n in atTop, ∀ p rest, Before flag levels toks rest p →
      Leads (parseReqAnd (parsers n)) (pLoop (chainTurn .andAnd .and (parsers n).reqNot) e) toks p)
    (nots : 3 ≤ pw → Parses (·.reqNot) e flag levels toks fun _ _ => True)
    (atoms : 4 ≤ pw → Parses (·.reqAtom) e flag levels toks fun _ _ => True) :
    ReqPrinted flag pw levels toks e where
  ors := Filter.Eventually.mono (reqAnd_of_ands ands) fun _ holds _ rest before follows =>
    .bind (holds _ rest before follows)
  ands _ := ands
  nots := nots
  atoms := atoms

theorem of_nots (nots : Parses (·.reqNot) e flag levels toks fun _ _ => True)
    (atoms : 4 ≤ pw → Parses (·.reqAtom) e flag levels toks fun _ _ => True) :
    ReqPrinted flag pw levels toks e :=
  of_ands
    (Filter.Eventually.mono nots fun _ holds p rest before => .bind (holds p rest before trivial))
    (fun _ => nots) atoms

/-- An atom or a group: what opens as neither `!` does. -/
theorem of_atoms (opens : ∃ t more, toks = t :: more ∧ t.kind ≠ .bang)
    (atoms : Parses (·.reqAtom) e flag levels toks fun _ _ => True) :
    ReqPrinted flag 4 levels toks e := by
  refine of_nots (.call parseReqNot (fun _ => rfl) ?_) fun _ => atoms
  obtain ⟨t, more, rfl, notBang⟩ := opens
  refine Filter.Eventually.mono atoms fun n holds p rest before _ => ?_
  exact .here (pEat_not (by rwa [before.kind])) (holds p rest before trivial)

theorem atom {name : CString} (isIdent : IsIdent name) :
    ReqPrinted flag 4 levels [word name] (.atom name) := by
  refine of_atoms ⟨_, _, rfl, by rw [Parse.word, isIdent.kind]; decide⟩ ?_
  refine .call parseReqAtom (fun _ => rfl) (.of_forall fun n p rest before _ => ?_)
  have here : p.kind = .ident := before.kind.trans isIdent
  refine .here (pAt_no (by rw [here]; decide)) (.here (pAt_yes here) ?_)
  exact (Gives.ident before isIdent rfl).map

theorem parens (printed : ReqPrinted flag pw levels toks e) :
    ReqPrinted flag 4 (1 + levels) (inParens toks) e := by
  refine of_atoms ⟨_, _, rfl, by decide⟩ (.call parseReqAtom (fun _ => rfl) ?_)
  rw [Nat.add_comm]
  refine Filter.Eventually.mono printed.reqOr fun n holds p rest before _ => ?_
  refine .here (pAt_yes before.kind) ?_
  refine (Gives.bump before (by decide)).one before fun q _ before => ?_
  refine Gives.inGroup (holds _ _ (before.regroup _).split (.inr (by simp [next, sym, symOn])))
    fun q reads => ?_
  have closing := before.after reads
  exact (Gives.expect closing rfl).one closing fun _ _ _ => .pure

theorem mono (printed : ReqPrinted flag pw levels toks e) (le : levels ≤ levels') :
    ReqPrinted flag pw levels' toks e where
  ors := printed.ors.mono fun _ leads p rest before follows =>
    leads p rest (before.mono le) follows
  ands tight := (printed.ands tight).mono fun _ leads p rest before => leads p rest (before.mono le)
  nots tight := (printed.nots tight).weaken le fun _ _ follows => follows
  atoms tight := (printed.atoms tight).weaken le fun _ _ follows => follows

/-- An operand, in parentheses or not. -/
theorem operand {atLeast : Nat} (small : atLeast ≤ 4)
    (printed : ReqPrinted flag (reqPower e) (reqLevels e) (reqToks e) e)
    (le : reqFit atLeast e (reqLevels e) (1 + reqLevels e) ≤ levels) :
    ∃ pw, atLeast ≤ pw ∧
      ReqPrinted flag pw levels (reqFit atLeast e (reqToks e) (inParens (reqToks e))) e := by
  unfold reqFit at le ⊢
  split at le
  · rename_i loose
    rw [if_pos loose]
    exact ⟨4, small, printed.parens.mono le⟩
  · rename_i tight
    rw [if_neg tight]
    exact ⟨reqPower e, Nat.le_of_not_lt tight, printed.mono le⟩

theorem negated (printed : ReqPrinted flag pw levels toks e) (tight : 4 ≤ pw) :
    ReqPrinted flag 3 levels (sym .bang :: toks) (.not e) := by
  refine of_nots (.call parseReqNot (fun _ => rfl) ?_) fun above => by omega
  refine Filter.Eventually.mono (printed.atoms tight) fun n holds p rest before _ => ?_
  refine (Gives.eat before rfl).one before fun q _ before => ?_
  exact (holds q rest before trivial).map

theorem conjoined (lhs : ReqPrinted flag pw levels toks e) (tight : 2 ≤ pw)
    (rhs : ReqPrinted flag pw' levels toks' e') (tight' : 3 ≤ pw') :
    ReqPrinted flag 2 levels (toks ++ sym .andAnd :: toks') (.and e e') := by
  refine of_ands ?_ (fun above => by omega) fun above => by omega
  filter_upwards [lhs.ands tight, rhs.nots tight'] with n leads holds p rest before
  refine (leads p _ before.split).trans fun q reads => .again ?_ (List.cons_ne_nil _ _)
  exact chainTurn_again (before.after reads) fun u _ before => holds u rest before trivial

theorem disjoined (lhs : ReqPrinted flag pw levels toks e)
    (rhs : ReqPrinted flag pw' levels toks' e') (tight' : 2 ≤ pw') :
    ReqPrinted flag 1 levels (toks ++ sym .orOr :: toks') (.or e e') := by
  refine ⟨?_, fun above => by omega, fun above => by omega, fun above => by omega⟩
  filter_upwards [lhs.ors, reqAnd_of_ands (rhs.ands tight')] with n leads holds p rest before follows
  refine (leads p _ before.split (.inr (by simp [next, sym, symOn]))).trans fun q reads =>
    .again ?_ (List.cons_ne_nil _ _)
  have group := reads.groupDepth
  refine chainTurn_again (before.after reads) fun u group' before => holds u rest before ?_
  rw [group', group]
  exact follows

end ReqPrinted

/-- A printed requirement expression is read back. -/
theorem req_printed (flag : Bool) (e : Formula CString) (spelled : ReqSpelled e) :
    ReqPrinted flag (reqPower e) (reqLevels e) (reqToks e) e := by
  induction e with
  | atom name => exact .atom (spelled name (List.mem_singleton_self name))
  | not e ih =>
      obtain ⟨pw, tight, printed⟩ := (ih spelled).operand (by decide : 4 ≤ 4) (Nat.le_refl _)
      exact printed.negated tight
  | and left right ihLeft ihRight =>
      obtain ⟨pw, tight, lhs⟩ := (ihLeft fun name listed => spelled name
        (List.mem_append_left _ listed)).operand (by decide : 2 ≤ 4) (Nat.le_max_left _ _)
      obtain ⟨pw', tight', rhs⟩ := (ihRight fun name listed => spelled name
        (List.mem_append_right _ listed)).operand (by decide : 3 ≤ 4) (Nat.le_max_right _ _)
      exact lhs.conjoined tight rhs tight'
  | or left right ihLeft ihRight =>
      obtain ⟨pw, tight, lhs⟩ := (ihLeft fun name listed => spelled name
        (List.mem_append_left _ listed)).operand (by decide : 1 ≤ 4) (Nat.le_max_left _ _)
      obtain ⟨pw', tight', rhs⟩ := (ihRight fun name listed => spelled name
        (List.mem_append_right _ listed)).operand (by decide : 2 ≤ 4) (Nat.le_max_right _ _)
      exact lhs.disjoined rhs tight'

end Geas.Compiler.Parse
