import Mathlib.Data.List.Basic

/-!
# Delimited texts

A text put together from parts can be taken apart again when every part tells where
it ends: a word ends where a symbol stands that no word holds, a bracketed part ends
with its bracket.  `ReadsAt` says this of one value, under an assumption on the text
that follows, so that the rules also serve inside an induction over the values.
-/

namespace Geas.Lib.Delimited

variable {σ α : Type}

/-- A text that does not go on with a symbol of a word. -/
def Stops (word : σ → Bool) : List σ → Prop
  | [] => True
  | first :: _ => word first = false

/-- The text of a value, in front of a text that may follow, is the text of no other
value. -/
def ReadsAt (follow : List σ → Prop) (code : α → List σ) (a : α) : Prop :=
  ∀ b left right, follow left → follow right → code a ++ left = code b ++ right →
    a = b ∧ left = right

/-- A word is read up to the first symbol that no word holds. -/
theorem word_inj {word : σ → Bool} {first second left right : List σ}
    (firstWord : ∀ s ∈ first, word s = true) (secondWord : ∀ s ∈ second, word s = true)
    (leftStops : Stops word left) (rightStops : Stops word right)
    (same : first ++ left = second ++ right) : first = second ∧ left = right := by
  induction first generalizing second with
  | nil =>
      cases second with
      | nil => exact ⟨rfl, same⟩
      | cons s second =>
          have inside := secondWord s List.mem_cons_self
          subst same
          exact absurd (inside.symm.trans leftStops) (by decide)
  | cons s first ih =>
      cases second with
      | nil =>
          have inside := firstWord s List.mem_cons_self
          rw [List.nil_append] at same
          subst same
          exact absurd (inside.symm.trans rightStops) (by decide)
      | cons t second =>
          rw [List.cons_append, List.cons_append, List.cons.injEq] at same
          have rest := ih (fun u inside => firstWord u (List.mem_cons_of_mem _ inside))
            (fun u inside => secondWord u (List.mem_cons_of_mem _ inside)) same.2
          exact ⟨by rw [same.1, rest.1], rest.2⟩

/-- Texts one after another are read one after another when what follows them is not
taken for one more. -/
theorem readsAt_flatMap {item follow : List σ → Prop} {code : α → List σ} {values : List α}
    (each : ∀ a ∈ values, ReadsAt item code a)
    (between : ∀ a rest, item (code a ++ rest)) (last : ∀ rest, follow rest → item rest)
    (ends : ∀ a rest text, follow text → code a ++ rest ≠ text) :
    ReadsAt follow (fun values => values.flatMap code) values := by
  induction values with
  | nil =>
      intro others left right leftFollows rightFollows same
      cases others with
      | nil => exact ⟨rfl, same⟩
      | cons b others =>
          simp only [List.flatMap_nil, List.nil_append, List.flatMap_cons, List.append_assoc] at same
          exact absurd same.symm (ends b _ left leftFollows)
  | cons a values ih =>
      intro others left right leftFollows rightFollows same
      cases others with
      | nil =>
          simp only [List.flatMap_nil, List.nil_append, List.flatMap_cons, List.append_assoc] at same
          exact absurd same (ends a _ right rightFollows)
      | cons b others =>
          have following : ∀ (values : List α) (rest : List σ), follow rest →
              item (values.flatMap code ++ rest) := by
            intro values rest follows
            cases values with
            | nil => exact last rest follows
            | cons c values =>
                rw [List.flatMap_cons, List.append_assoc]
                exact between c _
          simp only [List.flatMap_cons, List.append_assoc] at same
          have first := each a List.mem_cons_self b _ _ (following values left leftFollows)
            (following others right rightFollows) same
          have rest := ih (fun c inside => each c (List.mem_cons_of_mem _ inside)) others left right
            leftFollows rightFollows first.2
          exact ⟨by rw [first.1, rest.1], rest.2⟩

/-- Texts with a separator between them. -/
def separated (sep : σ) (code : α → List σ) : List α → List σ
  | [] => []
  | a :: values => code a ++ values.flatMap fun b => sep :: code b

/-- Separated texts are read when a separator ends each and what follows them is
neither a separator nor the start of one. -/
theorem readsAt_separated {sep : σ} {item follow : List σ → Prop} {code : α → List σ}
    {values : List α} (each : ∀ a ∈ values, ReadsAt item code a)
    (between : ∀ rest, item (sep :: rest)) (last : ∀ rest, follow rest → item rest)
    (ends : ∀ rest text, follow text → sep :: rest ≠ text)
    (empty : ∀ a rest text, follow text → code a ++ rest ≠ text) :
    ReadsAt follow (separated sep code) values := by
  have tail : ∀ values : List α, (∀ a ∈ values, ReadsAt item code a) →
      ReadsAt follow (fun values => values.flatMap fun b => sep :: code b) values := by
    intro values each
    refine readsAt_flatMap (fun a inside => ?_) (fun a rest => between _) last
      (fun a rest => ends _)
    intro b left right leftFollows rightFollows same
    rw [List.cons_append, List.cons_append, List.cons.injEq] at same
    exact each a inside b left right leftFollows rightFollows same.2
  intro others left right leftFollows rightFollows same
  cases values with
  | nil =>
      cases others with
      | nil => exact ⟨rfl, same⟩
      | cons b others =>
          simp only [separated, List.nil_append, List.append_assoc] at same
          exact absurd same.symm (empty b _ left leftFollows)
  | cons a values =>
      cases others with
      | nil =>
          simp only [separated, List.nil_append, List.append_assoc] at same
          exact absurd same (empty a _ right rightFollows)
      | cons b others =>
          have following : ∀ (values : List α) (rest : List σ), follow rest →
              item ((values.flatMap fun b => sep :: code b) ++ rest) := by
            intro values rest follows
            cases values with
            | nil => exact last rest follows
            | cons c values => exact between _
          simp only [separated, List.append_assoc] at same
          have first := each a List.mem_cons_self b _ _ (following values left leftFollows)
            (following others right rightFollows) same
          have rest := tail values (fun c inside => each c (List.mem_cons_of_mem _ inside)) others
            left right leftFollows rightFollows first.2
          exact ⟨by rw [first.1, rest.1], rest.2⟩

end Geas.Lib.Delimited
