import Mathlib.Data.List.Basic

/-!
# Runs of a recursive descent

Computations over a state that may stop with a fault.  A loop is given by its turn and
stops with a fault of its own when a turn that goes round again has used nothing up.

A discipline says in which states a run may start and how the state it leaves is related
to the state it started in.  `Steady` runs end properly from every such state, and a turn
that `Strides` uses something up whenever it goes round again.  Both are classes closed
under the forms a run is written in, so that a body is steady by what it calls.
-/

namespace Geas.Lib.Descent

variable {σ ε α β : Type}

/-- A run over a state `σ` that may stop with a fault. -/
abbrev Run (σ ε α : Type) : Type := StateT σ (Except ε) α

/-- Read something off the state. -/
def ask (f : σ → α) : Run σ ε α := fun s => .ok (f s, s)

/-- Change the state. -/
def update (f : σ → σ) : Run σ ε Unit := fun s => .ok ((), f s)

/-- What a turn of a loop decides. -/
inductive Turn (β : Type) where
  | again (b : β)
  | stop (b : β)

/-- A loop of at most `fuel` turns.  `left` is what a turn has to use up. -/
def loopFrom (left : σ → Nat) (stall : ε) (turn : β → Run σ ε (Turn β)) :
    Nat → β → Run σ ε β
  | 0, _ => throw stall
  | fuel + 1, b => do
      let before ← ask left
      match ← turn b with
      | .stop b => pure b
      | .again b => do
          let now ← ask left
          if now < before then loopFrom left stall turn fuel b else throw stall

/-- A loop, which runs as long as its turns say. -/
def loop (left : σ → Nat) (stall : ε) (turn : β → Run σ ε (Turn β)) (b : β) : Run σ ε β :=
  ask left >>= fun before => loopFrom left stall turn (before + 1) b

theorem run_bind {m : Run σ ε α} {f : α → Run σ ε β} {s t : σ} {a : α} (runs : m s = .ok (a, t)) :
    (m >>= f) s = f a t := by
  change (m s >>= fun answer => f answer.1 answer.2) = _
  rw [runs]
  rfl

theorem bind_ok {m : Run σ ε α} {f : α → Run σ ε β} {s t : σ} {b : β}
    (runs : (m >>= f) s = .ok (b, t)) : ∃ a u, m s = .ok (a, u) ∧ f a u = .ok (b, t) := by
  change (m s >>= fun answer => f answer.1 answer.2) = _ at runs
  cases first : m s with
  | error e => rw [first] at runs; cases runs
  | ok answer =>
      rw [first] at runs
      exact ⟨answer.1, answer.2, rfl, runs⟩

section Loops

variable {left : σ → Nat} {stall : ε} {turn : β → Run σ ε (Turn β)} {b b' : β} {s t : σ}

theorem loopFrom_stop {fuel : Nat} (runs : turn b s = .ok (.stop b', t)) :
    loopFrom left stall turn (fuel + 1) b s = .ok (b', t) := by
  rw [loopFrom, run_bind (a := left s) (t := s) rfl, run_bind runs]
  rfl

theorem loopFrom_again {fuel : Nat} (runs : turn b s = .ok (.again b', t)) :
    loopFrom left stall turn (fuel + 1) b s =
      if left t < left s then loopFrom left stall turn fuel b' t else .error stall := by
  rw [loopFrom, run_bind (a := left s) (t := s) rfl, run_bind runs]
  change (if left t < left s then _ else _ : Run σ ε β) t = _
  split
  · rfl
  · rfl

theorem loopFrom_error {fuel : Nat} {e : ε} (runs : turn b s = .error e) :
    loopFrom left stall turn (fuel + 1) b s = .error e := by
  rw [loopFrom, run_bind (a := left s) (t := s) rfl]
  change (turn b s >>= _) = _
  rw [runs]
  rfl

/-- What is left bounds the turns, so more fuel changes nothing. -/
theorem loopFrom_fuel (fuel fuel' : Nat) (b : β) (s : σ) (enough : left s < fuel)
    (enough' : left s < fuel') :
    loopFrom left stall turn fuel b s = loopFrom left stall turn fuel' b s := by
  induction fuel generalizing fuel' b s with
  | zero => omega
  | succ fuel ih =>
      obtain ⟨fuel', rfl⟩ : ∃ less, fuel' = less + 1 := ⟨fuel' - 1, by omega⟩
      cases runs : turn b s with
      | error e => rw [loopFrom_error runs, loopFrom_error runs]
      | ok answer =>
          obtain ⟨decided, t⟩ := answer
          cases decided with
          | stop b' => rw [loopFrom_stop runs, loopFrom_stop runs]
          | again b' =>
              rw [loopFrom_again runs, loopFrom_again runs]
              split
              · rename_i used
                exact ih fuel' b' t (by omega) (by omega)
              · rfl

theorem loop_stop (runs : turn b s = .ok (.stop b', t)) :
    loop left stall turn b s = .ok (b', t) :=
  loopFrom_stop runs

theorem loop_again (runs : turn b s = .ok (.again b', t)) (used : left t < left s) :
    loop left stall turn b s = loop left stall turn b' t := by
  change loopFrom left stall turn (left s + 1) b s = loopFrom left stall turn (left t + 1) b' t
  rw [loopFrom_again runs, if_pos used]
  exact loopFrom_fuel _ _ b' t used (Nat.lt_succ_self _)

/-- A loop that ends has made a turn, and goes on from there or not. -/
theorem loop_ok {b₁ : β} {t₁ : σ} (runs : loop left stall turn b s = .ok (b₁, t₁)) :
    turn b s = .ok (.stop b₁, t₁) ∨
      ∃ b' t, turn b s = .ok (.again b', t) ∧ left t < left s ∧
        loop left stall turn b' t = .ok (b₁, t₁) := by
  change loopFrom left stall turn (left s + 1) b s = _ at runs
  cases turned : turn b s with
  | error e =>
      rw [loopFrom_error turned] at runs
      cases runs
  | ok answer =>
      obtain ⟨decided, t⟩ := answer
      cases decided with
      | stop b' =>
          rw [loopFrom_stop turned] at runs
          cases runs
          exact .inl rfl
      | again b' =>
          rw [loopFrom_again turned] at runs
          split at runs
          · rename_i used
            refine .inr ⟨b', t, rfl, used, ?_⟩
            rw [← runs]
            exact loopFrom_fuel _ _ b' t (Nat.lt_succ_self _) used
          · cases runs

/-- What every turn keeps of what it carries holds of what the loop answers. -/
theorem loop_keeps {keeps : β → Prop}
    (turns : ∀ b s decided t, keeps b → turn b s = .ok (decided, t) →
      ∀ b', decided = .again b' ∨ decided = .stop b' → keeps b')
    {b₁ : β} {t₁ : σ} (first : keeps b) (runs : loop left stall turn b s = .ok (b₁, t₁)) :
    keeps b₁ := by
  induction size : left s using Nat.strongRecOn generalizing b s with
  | ind n ih =>
      rcases loop_ok runs with stops | ⟨b', t, goes, used, runs⟩
      · exact turns b s _ _ first stops _ (.inr rfl)
      · exact ih _ (size ▸ used) (turns b s _ _ first goes _ (.inl rfl)) runs rfl

end Loops

/-! ### Runs that end -/

/-- From `s` the run ends with an answer and a state that satisfy `post`. -/
def Ends (m : Run σ ε α) (s : σ) (post : α → σ → Prop) : Prop :=
  ∃ a s', m s = .ok (a, s') ∧ post a s'

namespace Ends

variable {m : Run σ ε α} {s : σ} {post mid : α → σ → Prop}

theorem pure {a : α} (holds : post a s) : Ends (pure a : Run σ ε α) s post :=
  ⟨a, s, rfl, holds⟩

theorem ask {f : σ → α} (holds : post (f s) s) : Ends (ask f : Run σ ε α) s post :=
  ⟨f s, s, rfl, holds⟩

theorem ask_bind {f : σ → α} {next : α → Run σ ε β} {post : β → σ → Prop}
    (ends : Ends (next (f s)) s post) : Ends (Descent.ask f >>= next) s post :=
  ends

theorem update {f : σ → σ} {post : Unit → σ → Prop} (holds : post () (f s)) :
    Ends (update f : Run σ ε Unit) s post :=
  ⟨(), f s, rfl, holds⟩

theorem update_bind {f : σ → σ} {next : Unit → Run σ ε β} {post : β → σ → Prop}
    (ends : Ends (next ()) (f s) post) : Ends (Descent.update f >>= next) s post :=
  ends

theorem step {f : α → Run σ ε β} {post : β → σ → Prop} {a : α} {t : σ} (runs : m s = .ok (a, t))
    (next : Ends (f a) t post) : Ends (m >>= f) s post := by
  obtain ⟨b, u, runsNext, holds⟩ := next
  exact ⟨b, u, (run_bind runs).trans runsNext, holds⟩

theorem bind {f : α → Run σ ε β} {post : β → σ → Prop} (first : Ends m s mid)
    (next : ∀ a s', mid a s' → Ends (f a) s' post) : Ends (m >>= f) s post := by
  obtain ⟨a, s', runs, holds⟩ := first
  exact step runs (next a s' holds)

theorem and (left : Ends m s post) (right : Ends m s mid) :
    Ends m s fun a s' => post a s' ∧ mid a s' := by
  obtain ⟨a, s', runs, holds⟩ := left
  obtain ⟨b, t, same, holdsToo⟩ := right
  cases runs.symm.trans same
  exact ⟨a, s', runs, holds, holdsToo⟩

theorem mono (ends : Ends m s mid) (weaker : ∀ a s', mid a s' → post a s') : Ends m s post := by
  obtain ⟨a, s', runs, holds⟩ := ends
  exact ⟨a, s', runs, weaker a s' holds⟩

end Ends

/-! ### Disciplines -/

/-- In which states a run may start, and how it may leave the state. -/
structure Discipline (σ : Type) where
  ready : σ → Prop
  after : σ → σ → Prop
  /-- What the turns of a loop use up. -/
  left : σ → Nat
  refl : ∀ {s}, ready s → after s s
  trans : ∀ {s t u}, after s t → after t u → after s u
  keeps : ∀ {s t}, ready s → after s t → ready t
  left_le : ∀ {s t}, after s t → left t ≤ left s

/-- The run ends from every state it may start in. -/
class Steady (D : Discipline σ) (m : Run σ ε α) : Prop where
  ends : ∀ s, D.ready s → Ends m s fun _ t => D.after s t

/-- The turn ends, and has used something up when it goes round again. -/
class Strides (D : Discipline σ) (m : Run σ ε (Turn β)) : Prop where
  ends : ∀ s, D.ready s → Ends m s fun turn t =>
    D.after s t ∧ ∀ b, turn = .again b → D.left t < D.left s

variable {D : Discipline σ}

instance {a : α} : Steady D (pure a : Run σ ε α) where
  ends _ ready := .pure (D.refl ready)

instance {f : σ → α} : Steady D (ask f : Run σ ε α) where
  ends _ ready := .ask (D.refl ready)

theorem Steady.bind {m : Run σ ε α} {f : α → Run σ ε β} (first : Steady D m)
    (next : ∀ a, Steady D (f a)) : Steady D (m >>= f) where
  ends s ready := by
    refine .bind (first.ends s ready) fun a t after => ?_
    refine .mono ((next a).ends t (D.keeps ready after)) fun b u afterNext => ?_
    exact D.trans after afterNext

instance {m : Run σ ε α} {f : α → Run σ ε β} [first : Steady D m] [next : ∀ a, Steady D (f a)] :
    Steady D (m >>= f) :=
  first.bind next

instance {c : Prop} [Decidable c] {m n : Run σ ε α} [Steady D m] [Steady D n] :
    Steady D (if c then m else n) where
  ends s ready := by
    split
    · exact Steady.ends s ready
    · exact Steady.ends s ready

instance {b : β} : Strides D (pure (.stop b) : Run σ ε (Turn β)) where
  ends _ ready := .pure ⟨D.refl ready, fun _ again => by cases again⟩

instance {m : Run σ ε α} {f : α → Run σ ε (Turn β)} [Steady D m] [∀ a, Strides D (f a)] :
    Strides D (m >>= f) where
  ends s ready := by
    refine .bind (Steady.ends s ready) fun a t after => ?_
    refine .mono (Strides.ends t (D.keeps ready after)) fun turn u ⟨afterNext, less⟩ => ?_
    refine ⟨D.trans after afterNext, fun b again => ?_⟩
    exact Nat.lt_of_lt_of_le (less b again) (D.left_le after)

instance {c : Prop} [Decidable c] {m n : Run σ ε (Turn β)} [Strides D m] [Strides D n] :
    Strides D (if c then m else n) where
  ends s ready := by
    split
    · exact Strides.ends s ready
    · exact Strides.ends s ready

/-- A loop of enough turns ends, by induction on what is left to use up. -/
theorem loopFrom_ends {stall : ε} {turn : β → Run σ ε (Turn β)}
    (strides : ∀ b, Strides D (turn b)) (fuel : Nat) (b : β) (s : σ) (ready : D.ready s)
    (enough : D.left s < fuel) :
    Ends (loopFrom D.left stall turn fuel b) s fun _ t => D.after s t := by
  induction fuel generalizing b s with
  | zero => omega
  | succ fuel ih =>
      unfold loopFrom
      refine .ask_bind (.bind ((strides b).ends _ ready) fun decided t ⟨after, less⟩ => ?_)
      cases decided with
      | stop b => exact .pure after
      | again b =>
          have used := less b rfl
          refine .ask_bind ?_
          rw [if_pos used]
          refine .mono (ih b _ (D.keeps ready after) (by omega)) fun _ u afterNext => ?_
          exact D.trans after afterNext

instance {stall : ε} {turn : β → Run σ ε (Turn β)} {b : β} [strides : ∀ b, Strides D (turn b)] :
    Steady D (loop D.left stall turn b) where
  ends s ready := by
    exact .ask_bind (loopFrom_ends strides _ b _ ready (Nat.lt_succ_self _))

/-! ### Measures that never fall -/

/-- However the run ends, the measure has not fallen. -/
class Grows (f : σ → Nat) (m : Run σ ε α) : Prop where
  le : ∀ {s a t}, m s = .ok (a, t) → f s ≤ f t

variable {f : σ → Nat}

instance {a : α} : Grows f (pure a : Run σ ε α) where
  le runs := by
    cases runs
    exact Nat.le_refl _

instance {g : σ → α} : Grows f (ask g : Run σ ε α) where
  le runs := by
    cases runs
    exact Nat.le_refl _

instance {e : ε} : Grows f (throw e : Run σ ε α) where
  le runs := by cases runs

theorem Grows.update {g : σ → σ} (grows : ∀ s, f s ≤ f (g s)) :
    Grows f (Descent.update g : Run σ ε Unit) where
  le {s a t} runs := by
    cases runs
    exact grows s

theorem Grows.bind {m : Run σ ε α} {next : α → Run σ ε β} (first : Grows f m)
    (rest : ∀ a, Grows f (next a)) : Grows f (m >>= next) where
  le runs := by
    obtain ⟨a, u, runs, runsNext⟩ := bind_ok runs
    exact Nat.le_trans (first.le runs) ((rest a).le runsNext)

instance {m : Run σ ε α} {next : α → Run σ ε β} [first : Grows f m] [rest : ∀ a, Grows f (next a)] :
    Grows f (m >>= next) :=
  first.bind rest

instance {c : Prop} [Decidable c] {m n : Run σ ε α} [first : Grows f m] [second : Grows f n] :
    Grows f (if c then m else n) := by
  split
  · exact first
  · exact second

/-- A loop of turns that keep the measure keeps it, by induction on what is left. -/
instance {left : σ → Nat} {stall : ε} {turn : β → Run σ ε (Turn β)} {b : β}
    [turns : ∀ b, Grows f (turn b)] : Grows f (loop left stall turn b) where
  le {s b₁ t₁} runs := by
    induction size : left s using Nat.strongRecOn generalizing b s with
    | ind n ih =>
        rcases loop_ok runs with stops | ⟨b', t, goes, used, runs⟩
        · exact (turns b).le stops
        · exact Nat.le_trans ((turns b).le goes) (ih _ (size ▸ used) runs rfl)

/-! ### Runs that agree where one ends -/

/-- Wherever the first run ends, the second ends the same way. -/
class Below (m m' : Run σ ε α) : Prop where
  same : ∀ {s a t}, m s = .ok (a, t) → m' s = .ok (a, t)

instance (priority := low) Below.refl {m : Run σ ε α} : Below m m where
  same runs := runs

instance {e : ε} {m : Run σ ε α} : Below (throw e) m where
  same runs := by cases runs

theorem Below.trans {m m' m'' : Run σ ε α} (first : Below m m') (second : Below m' m'') :
    Below m m'' where
  same runs := second.same (first.same runs)

theorem Below.bind {m m' : Run σ ε α} {f f' : α → Run σ ε β} (first : Below m m')
    (rest : ∀ a, Below (f a) (f' a)) : Below (m >>= f) (m' >>= f') where
  same runs := by
    obtain ⟨a, u, runs, runsNext⟩ := bind_ok runs
    exact (run_bind (first.same runs)).trans ((rest a).same runsNext)

instance {m m' : Run σ ε α} {f f' : α → Run σ ε β} [first : Below m m']
    [rest : ∀ a, Below (f a) (f' a)] : Below (m >>= f) (m' >>= f') :=
  first.bind rest

instance {c : Prop} [Decidable c] {m m' n n' : Run σ ε α} [first : Below m m']
    [second : Below n n'] : Below (if c then m else n) (if c then m' else n') := by
  split
  · exact first
  · exact second

/-- A loop agrees with a loop whose turns agree with its own, by induction on what is left. -/
instance {left : σ → Nat} {stall : ε} {turn turn' : β → Run σ ε (Turn β)} {b : β}
    [turns : ∀ b, Below (turn b) (turn' b)] :
    Below (loop left stall turn b) (loop left stall turn' b) where
  same {s b₁ t₁} runs := by
    induction size : left s using Nat.strongRecOn generalizing b s with
    | ind n ih =>
        rcases loop_ok runs with stops | ⟨b', t, goes, used, runs⟩
        · exact loop_stop ((turns b).same stops)
        · rw [loop_again ((turns b).same goes) used]
          exact ih _ (size ▸ used) runs rfl

end Geas.Lib.Descent
