import Mathlib.Data.Option.Basic

/-!
# Runs of a labelled machine

A machine is a partial step function over states and labels.  A run is the
machine executed on a list of labels, so a statement about every run is a
statement about every list.  `Guarded` says that each step of a run meets a
condition on the state before it and its label.

The two rules lift a step lemma to whole runs: `run_invariant` for properties of
the states reached, `run_relation` for properties that compare an earlier state
with a later one.
-/

namespace Geas.Lib.Transition

variable {σ α : Type}

/-- Execute the labels in order, stopping where the machine has no step. -/
def run (step : σ → α → Option σ) : σ → List α → Option σ
  | state, [] => some state
  | state, label :: rest => (step state label).bind fun next => run step next rest

/-- Every step of the run meets `guard` at the state it is taken from. -/
def Guarded (step : σ → α → Option σ) (guard : σ → α → Prop) : σ → List α → Prop
  | _, [] => True
  | state, label :: rest =>
      guard state label ∧ ∀ next, step state label = some next → Guarded step guard next rest

variable {step : σ → α → Option σ} {guard : σ → α → Prop} {first middle last : σ}

theorem run_cons {label : α} {rest : List α} :
    run step first (label :: rest) = some last ↔
      ∃ next, step first label = some next ∧ run step next rest = some last := by
  simp [run, Option.bind_eq_some_iff]

/-- A run splits at any point. -/
theorem run_append {front back : List α} :
    run step first (front ++ back) = some last ↔
      ∃ middle, run step first front = some middle ∧ run step middle back = some last := by
  induction front generalizing first with
  | nil => simp [run]
  | cons label rest ih =>
      simp only [List.cons_append, run_cons, ih]
      constructor
      · rintro ⟨next, stepped, middle, ran, ran'⟩
        exact ⟨middle, ⟨next, stepped, ran⟩, ran'⟩
      · rintro ⟨middle, ⟨next, stepped, ran⟩, ran'⟩
        exact ⟨next, stepped, middle, ran, ran'⟩

/-- Labels that are admitted everywhere make a guarded run. -/
theorem guarded_of_forall {labels : List α} (admitted : ∀ label ∈ labels, ∀ state, guard state label)
    (state : σ) : Guarded step guard state labels := by
  induction labels generalizing state with
  | nil => trivial
  | cons label rest ih =>
      refine ⟨admitted label List.mem_cons_self state, fun next _ => ih ?_ next⟩
      exact fun later membership => admitted later (List.mem_cons_of_mem _ membership)

theorem guarded_true (state : σ) (labels : List α) :
    Guarded step (fun _ _ => True) state labels :=
  guarded_of_forall (fun _ _ _ => trivial) state

/-- What a run that succeeds shows of its last state. -/
theorem exists_run_of_map {β : Type} {labels : List α} {view : σ → β} {shown : β}
    (shows : (run step first labels).map view = some shown) :
    ∃ last, run step first labels = some last ∧ view last = shown :=
  Option.map_eq_some_iff.mp shows

/-- What every guarded step keeps, every guarded run keeps. -/
theorem run_invariant {invariant : σ → Prop} {labels : List α}
    (keeps : ∀ state label next, invariant state → guard state label →
      step state label = some next → invariant next)
    (start : invariant first) (guarded : Guarded step guard first labels)
    (ran : run step first labels = some last) : invariant last := by
  induction labels generalizing first with
  | nil =>
      cases ran
      exact start
  | cons label rest ih =>
      obtain ⟨next, stepped, ran⟩ := run_cons.mp ran
      exact ih (keeps first label next start guarded.1 stepped) (guarded.2 next stepped) ran

/-- A preorder that holds across every step taken from an invariant state holds
across every run. -/
theorem run_relation {invariant : σ → Prop} {relation : σ → σ → Prop} {labels : List α}
    (refl : ∀ state, relation state state)
    (trans : ∀ s t u, relation s t → relation t u → relation s u)
    (keeps : ∀ state label next, invariant state → guard state label →
      step state label = some next → invariant next ∧ relation state next)
    (start : invariant first) (guarded : Guarded step guard first labels)
    (ran : run step first labels = some last) : relation first last := by
  induction labels generalizing first with
  | nil =>
      cases ran
      exact refl _
  | cons label rest ih =>
      obtain ⟨next, stepped, ran⟩ := run_cons.mp ran
      obtain ⟨kept, related⟩ := keeps first label next start guarded.1 stepped
      exact trans first next last related (ih kept (guarded.2 next stepped) ran)

end Geas.Lib.Transition
