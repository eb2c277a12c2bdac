import Geas.Lib.Transition
import Mathlib.Data.List.Basic
import Mathlib.Logic.Function.Basic

/-!
# Sessions of the bridge and the claim of a parked one

Any number of bridge servers share one park store.  A session ends by leaving its
server's table, parking its instance under its token and breaking it; a `Resume`
reads the row of a token and builds an instance from it, deletes the row, and
enters the instance in the table if the delete removed a row.  A server's resume
lock is held from the read to the table; nothing orders the steps of two servers.

An instance is known here by the fulfillments it has recorded.  Beside what the
servers keep, the world remembers every park of every token, newest first, and
how many there were when a `Resume` read its row: no server sees either, and they
are what the properties are about.
-/

namespace Geas.Interop

open Geas.Lib.Transition

/-- Where a session stands.  `read` and `claimed` are the two pauses inside a
`Resume`, `ending` and `parked` the two inside an ending. -/
inductive Phase where
  | read | claimed | live | ending | parked | gone
  deriving DecidableEq, Repr

/-- A session, and where its instance came from: the fulfillments it was built
with, whether a row gave them, and the number of parks there were at that time. -/
structure Session (ν τ φ : Type) where
  server : ν
  token : τ
  phase : Phase
  recorded : List φ
  started : List φ
  resumed : Bool
  parksSeen : Nat

/-- All servers, their sessions numbered in order of creation, and the park store. -/
structure World (ν τ φ : Type) where
  sessions : Nat → Option (Session ν τ φ)
  next : Nat
  store : τ → Option (List φ)
  resumeLock : ν → Bool
  issued : τ → Bool
  parks : τ → List (List φ)
  refused : τ → Bool

variable {ν τ φ : Type}

/-- The steps of a session after it came to be.  `park` writes the row; `refuse` is a
park the runtime or the store turned down, which the ending reports and passes
over. -/
inductive Move (φ : Type) where
  | claim | insert | call (fulfillment : φ) | remove | park | refuse | drop
  deriving DecidableEq, Repr

/-- The steps of the servers. -/
inductive Act (ν τ φ : Type) where
  | sign (server : ν) (token : τ)
  | read (server : ν) (token : τ)
  | move (id : Nat) (move : Move φ)

namespace World

/-- Replace a session. -/
def put (w : World ν τ φ) (id : Nat) (session : Session ν τ φ) : World ν τ φ :=
  { w with sessions := Function.update w.sessions id (some session) }

/-- Add a session under a fresh number. -/
def add (w : World ν τ φ) (session : Session ν τ φ) : World ν τ φ :=
  { w.put w.next session with next := w.next + 1 }

end World

/-- A session as it enters the table with a fresh token. -/
def signed (server : ν) (token : τ) : Session ν τ φ :=
  ⟨server, token, .live, [], [], false, 0⟩

/-- A session as a `Resume` builds it from a row. -/
def built (server : ν) (token : τ) (row : List φ) (parks : Nat) : Session ν τ φ :=
  ⟨server, token, .read, row, row, true, parks⟩

variable [DecidableEq ν] [DecidableEq τ]

/-- One step of one session, from the phase the step needs. -/
def sessionStep (w : World ν τ φ) (id : Nat) (s : Session ν τ φ) : Move φ → Option (World ν τ φ)
  | .claim =>
      if s.phase = .read then
        -- The delete is by key: it removes whatever row the token has now.
        if (w.store s.token).isSome then
          some { w.put id { s with phase := .claimed } with
            store := Function.update w.store s.token none }
        else
          some { w.put id { s with phase := .gone } with
            resumeLock := Function.update w.resumeLock s.server false }
      else none
  | .insert =>
      if s.phase = .claimed then
        some { w.put id { s with phase := .live } with
          resumeLock := Function.update w.resumeLock s.server false }
      else none
  | .call fulfillment =>
      -- A call admitted before the row left the table still finishes.
      if s.phase = .live ∨ s.phase = .ending then
        some (w.put id { s with recorded := s.recorded ++ [fulfillment] })
      else none
  | .remove => if s.phase = .live then some (w.put id { s with phase := .ending }) else none
  | .park =>
      if s.phase = .ending then
        some { w.put id { s with phase := .parked } with
          store := Function.update w.store s.token (some s.recorded)
          parks := Function.update w.parks s.token (s.recorded :: w.parks s.token) }
      else none
  | .refuse =>
      if s.phase = .ending then
        some { w.put id { s with phase := .parked } with
          refused := Function.update w.refused s.token true }
      else none
  | .drop => if s.phase = .parked then some (w.put id { s with phase := .gone }) else none

/-- One step of the servers.  A token is issued once; a `Resume` whose token has no
row answers an error and leaves everything as it was. -/
def step (w : World ν τ φ) : Act ν τ φ → Option (World ν τ φ)
  | .sign server token =>
      if w.issued token then none
      else some { w.add (signed server token) with
        issued := Function.update w.issued token true }
  | .read server token =>
      if w.resumeLock server then none
      else
        match w.store token with
        | none => some w
        | some row =>
            some { w.add (built server token row (w.parks token).length) with
              resumeLock := Function.update w.resumeLock server true }
  | .move id move => (w.sessions id).bind fun s => sessionStep w id s move

/-- No session, no row. -/
def empty : World ν τ φ :=
  ⟨fun _ => none, 0, fun _ => none, fun _ => false, fun _ => false, fun _ => [], fun _ => false⟩

/-! ### The token is held once -/

/-- The phases in which a session holds its token: the row is its own. -/
def Phase.holds : Phase → Bool
  | claimed | live | ending => true
  | _ => false

/-- A token is in one place: its row, or one session that holds it. -/
structure Owned (w : World ν τ φ) : Prop where
  fresh : ∀ id, w.next ≤ id → w.sessions id = none
  issued : ∀ id s, w.sessions id = some s → w.issued s.token = true
  parked : ∀ t, w.issued t = false → w.store t = none ∧ w.parks t = []
  alone : ∀ id s, w.sessions id = some s → s.phase.holds = true → w.store s.token = none
  unique : ∀ id s id' s', w.sessions id = some s → w.sessions id' = some s' →
    s.phase.holds = true → s'.phase.holds = true → s.token = s'.token → id = id'
  latest : ∀ t row, w.store t = some row → (w.parks t).head? = some row

omit [DecidableEq ν] [DecidableEq τ] in
theorem owned_empty : Owned (empty : World ν τ φ) where
  fresh _ _ := rfl
  issued _ _ known := by cases known
  parked _ _ := ⟨rfl, rfl⟩
  alone _ _ known := by cases known
  unique _ _ _ _ known := by cases known
  latest _ _ known := by cases known

omit [DecidableEq ν] [DecidableEq τ] in
/-- A session of the table after one was replaced: the new one, or one from before. -/
theorem sessions_put {w : World ν τ φ} {id other : Nat} {s' session : Session ν τ φ}
    (known : (w.put id s').sessions other = some session) :
    (other = id ∧ session = s') ∨ (other ≠ id ∧ w.sessions other = some session) := by
  by_cases same : other = id
  · subst same
    simp only [World.put, Function.update_self, Option.some.injEq] at known
    exact Or.inl ⟨rfl, known.symm⟩
  · simp only [World.put, Function.update_of_ne same] at known
    exact Or.inr ⟨same, known⟩

section Owned

variable {w w' : World ν τ φ} {id : Nat} {s s' : Session ν τ φ}

omit [DecidableEq ν] [DecidableEq τ] in
/-- The table after a session was replaced by one of the same token that holds it only
if it did before, or if nobody did. -/
theorem owned_put {lock : ν → Bool} {refused : τ → Bool} {store : τ → Option (List φ)}
    {parks : τ → List (List φ)} (owned : Owned w) (known : w.sessions id = some s)
    (token : s'.token = s.token)
    (holds : s'.phase.holds = true → s.phase.holds = true ∨ (w.store s.token).isSome = true)
    (parked : ∀ t, w.issued t = false → store t = none ∧ parks t = [])
    (alone : ∀ other session, (w.put id s').sessions other = some session →
      session.phase.holds = true → store session.token = none)
    (latest : ∀ t row, store t = some row → (parks t).head? = some row) :
    Owned { w.put id s' with
      store := store
      resumeLock := lock
      parks := parks
      refused := refused } := by
  -- Two sessions that hold one token: neither is new unless the old one held it.
  have clash : ∀ other session, other ≠ id → w.sessions other = some session →
      session.phase.holds = true → session.token = s.token → s'.phase.holds = true → False := by
    intro other session apart otherKnown otherHolds same newHolds
    rcases holds newHolds with held | stored
    · exact apart (owned.unique other session id s otherKnown known otherHolds held same)
    · have absent := owned.alone other session otherKnown otherHolds
      rw [same] at absent
      simp [absent] at stored
  constructor
  · intro other above
    have apart : other ≠ id := by
      rintro rfl
      rw [owned.fresh other above] at known
      cases known
    simpa only [World.put, Function.update_of_ne apart] using owned.fresh other above
  · intro other session otherKnown
    rcases sessions_put otherKnown with ⟨rfl, rfl⟩ | ⟨-, old⟩
    · rw [token]
      exact owned.issued other s known
    · exact owned.issued other session old
  · exact parked
  · exact alone
  · intro first session second session' firstKnown secondKnown firstHolds secondHolds same
    rcases sessions_put firstKnown with ⟨rfl, rfl⟩ | ⟨apart, old⟩
    · rcases sessions_put secondKnown with ⟨rfl, rfl⟩ | ⟨apart, old⟩
      · rfl
      · exact (clash second session' apart old secondHolds (same.symm.trans token) firstHolds).elim
    · rcases sessions_put secondKnown with ⟨rfl, rfl⟩ | ⟨apart', old'⟩
      · exact (clash first session apart old firstHolds (same.trans token) secondHolds).elim
      · exact owned.unique first session second session' old old' firstHolds secondHolds same
  · exact latest

omit [DecidableEq ν] [DecidableEq τ] in
/-- A move that leaves the store alone and takes no token. -/
theorem owned_move {lock : ν → Bool} {refused : τ → Bool} (owned : Owned w)
    (known : w.sessions id = some s) (token : s'.token = s.token)
    (holds : s'.phase.holds = true → s.phase.holds = true) :
    Owned { w.put id s' with resumeLock := lock, refused := refused } := by
  refine owned_put owned known token (fun held => Or.inl (holds held)) owned.parked ?_ owned.latest
  intro other session otherKnown otherHolds
  rcases sessions_put otherKnown with ⟨rfl, rfl⟩ | ⟨-, old⟩
  · rw [token]
    exact owned.alone other s known (holds otherHolds)
  · exact owned.alone other session old otherHolds

omit [DecidableEq ν] in
/-- A claim that removes a row: the token passes from the row to the session. -/
theorem owned_claim (owned : Owned w) (known : w.sessions id = some s) (token : s'.token = s.token)
    (stored : (w.store s.token).isSome = true) :
    Owned { w.put id s' with store := Function.update w.store s.token none } := by
  have unissued : ∀ t, w.issued t = false → t ≠ s.token := by
    rintro t fresh rfl
    rw [owned.issued id s known] at fresh
    cases fresh
  refine owned_put owned known token (fun _ => Or.inr stored) ?_ ?_ ?_
  · intro t fresh
    rw [Function.update_of_ne (unissued t fresh)]
    exact owned.parked t fresh
  · intro other session otherKnown otherHolds
    rw [Function.update_apply]
    split
    · rfl
    · rename_i apart
      rcases sessions_put otherKnown with ⟨rfl, rfl⟩ | ⟨-, old⟩
      · exact absurd token apart
      · exact owned.alone other session old otherHolds
  · intro t row here
    rw [Function.update_apply] at here
    split at here
    · cases here
    · exact owned.latest t row here

omit [DecidableEq ν] in
/-- A park: the token passes from the session to the row. -/
theorem owned_park (owned : Owned w) (known : w.sessions id = some s) (token : s'.token = s.token)
    (held : s.phase.holds = true) (released : s'.phase.holds = false) :
    Owned { w.put id s' with
      store := Function.update w.store s.token (some s.recorded)
      parks := Function.update w.parks s.token (s.recorded :: w.parks s.token) } := by
  have unissued : ∀ t, w.issued t = false → t ≠ s.token := by
    rintro t fresh rfl
    rw [owned.issued id s known] at fresh
    cases fresh
  refine owned_put owned known token (by simp [released]) ?_ ?_ ?_
  · intro t fresh
    rw [Function.update_of_ne (unissued t fresh), Function.update_of_ne (unissued t fresh)]
    exact owned.parked t fresh
  · intro other session otherKnown otherHolds
    rcases sessions_put otherKnown with ⟨rfl, rfl⟩ | ⟨apart, old⟩
    · rw [released] at otherHolds
      cases otherHolds
    · have other_token : session.token ≠ s.token := fun same =>
        apart (owned.unique other session id s old known otherHolds held same)
      rw [Function.update_of_ne other_token]
      exact owned.alone other session old otherHolds
  · intro t row here
    rw [Function.update_apply] at here ⊢
    split at here
    · rename_i same
      rw [if_pos same]
      exact here
    · rename_i apart
      rw [if_neg apart]
      exact owned.latest t row here

theorem owned_sessionStep {move : Move φ} (owned : Owned w) (known : w.sessions id = some s)
    (stepped : sessionStep w id s move = some w') : Owned w' := by
  cases move with
  | claim =>
      simp only [sessionStep] at stepped
      split at stepped
      · split at stepped
        · rename_i stored
          cases stepped
          exact owned_claim owned known rfl stored
        · cases stepped
          exact owned_move owned known rfl (fun held => by cases held)
      · cases stepped
  | insert =>
      simp only [sessionStep] at stepped
      split at stepped
      · rename_i claimed
        cases stepped
        exact owned_move owned known rfl (fun _ => by rw [claimed]; rfl)
      · cases stepped
  | call fulfillment =>
      simp only [sessionStep] at stepped
      split at stepped
      · cases stepped
        exact owned_move owned known rfl (fun held => held)
      · cases stepped
  | remove =>
      simp only [sessionStep] at stepped
      split at stepped
      · rename_i live
        cases stepped
        exact owned_move owned known rfl (fun _ => by rw [live]; rfl)
      · cases stepped
  | park =>
      simp only [sessionStep] at stepped
      split at stepped
      · rename_i ending
        cases stepped
        exact owned_park owned known rfl (by rw [ending]; rfl) rfl
      · cases stepped
  | refuse =>
      simp only [sessionStep] at stepped
      split at stepped
      · cases stepped
        exact owned_move owned known rfl (fun held => by cases held)
      · cases stepped
  | drop =>
      simp only [sessionStep] at stepped
      split at stepped
      · cases stepped
        exact owned_move owned known rfl (fun held => by cases held)
      · cases stepped

end Owned

theorem owned_step {w w' : World ν τ φ} {act : Act ν τ φ} (owned : Owned w)
    (stepped : step w act = some w') : Owned w' := by
  cases act with
  | move id move =>
      obtain ⟨s, known, stepped⟩ := Option.bind_eq_some_iff.mp stepped
      exact owned_sessionStep owned known stepped
  | sign server token =>
      obtain ⟨fresh, issued, parked, alone, unique, latest⟩ := owned
      simp only [step] at stepped
      split at stepped
      · cases stepped
      · cases stepped
        constructor <;> simp only [World.add, World.put, signed] <;>
          grind [Function.update_apply]
  | read server token =>
      obtain ⟨fresh, issued, parked, alone, unique, latest⟩ := owned
      simp only [step] at stepped
      split at stepped
      · cases stepped
      · split at stepped
        · cases stepped
          exact ⟨fresh, issued, parked, alone, unique, latest⟩
        · cases stepped
          constructor <;> simp only [World.add, World.put, built] <;>
            grind [Function.update_apply, Phase.holds]

/-! ### What a claim may find -/

/-- A delete that removes a row removes the row its `Resume` read: nobody parked the
token in between. -/
def NoRepark (w : World ν τ φ) : Act ν τ φ → Prop
  | .move id .claim => ∀ s, w.sessions id = some s → s.phase = .read →
      (w.store s.token).isSome = true → (w.parks s.token).length = s.parksSeen
  | _ => True

/-- Some session holds the token. -/
def Held (w : World ν τ φ) (t : τ) : Prop :=
  ∃ id s, w.sessions id = some s ∧ s.phase.holds = true ∧ s.token = t

omit [DecidableEq ν] [DecidableEq τ] in
/-- A token stays held when the session that moved holds it as before. -/
theorem held_put {w : World ν τ φ} {id : Nat} {s s' : Session ν τ φ} {t : τ}
    (known : w.sessions id = some s)
    (keeps : s.phase.holds = true → s.token = t → s'.phase.holds = true ∧ s'.token = t)
    (held : Held w t) : Held (w.put id s') t := by
  obtain ⟨other, session, otherKnown, holds, token⟩ := held
  by_cases same : other = id
  · subst same
    rw [known] at otherKnown
    cases otherKnown
    exact ⟨other, s', by simp [World.put], keeps holds token⟩
  · exact ⟨other, session, by simp [World.put, same, otherKnown], holds, token⟩

/-- Every park of a token extends the ones before it, a session that holds the token
carries them all, and a `Resume` that saw the last park was built from it. -/
structure Carried (w : World ν τ φ) : Prop where
  chain : ∀ t, (w.parks t).Pairwise fun newer older => older <+: newer
  reader : ∀ id s, w.sessions id = some s → s.phase = .read →
    s.resumed = true ∧ s.recorded = s.started ∧ s.parksSeen ≤ (w.parks s.token).length ∧
      ((w.parks s.token).length = s.parksSeen → (w.parks s.token).head? = some s.started)
  holder : ∀ id s, w.sessions id = some s → s.phase.holds = true →
    s.started <+: s.recorded ∧ (∀ row ∈ w.parks s.token, row <+: s.started) ∧
      (s.resumed = true → (w.parks s.token).head? = some s.started)
  present : ∀ t, w.parks t ≠ [] → w.refused t = false → (w.store t).isSome = true ∨ Held w t

omit [DecidableEq ν] [DecidableEq τ] in
theorem carried_empty : Carried (empty : World ν τ φ) where
  chain _ := List.Pairwise.nil
  reader _ _ known := by cases known
  holder _ _ known := by cases known
  present _ parked := absurd rfl parked

theorem prefix_of_chain {rows : List (List φ)} {last : List φ}
    (chain : rows.Pairwise fun newer older => older <+: newer) (latest : rows.head? = some last) :
    ∀ row ∈ rows, row <+: last := by
  cases rows with
  | nil => cases latest
  | cons newest older =>
      cases latest
      intro row inside
      rcases List.mem_cons.mp inside with rfl | inside
      · exact List.prefix_rfl
      · exact List.rel_of_pairwise_cons chain inside

section Steps

variable {w w' : World ν τ φ} {id : Nat} {s : Session ν τ φ}

/-- A claim that removes the row it read takes the last park along. -/
theorem carried_claim (carried : Carried w) (known : w.sessions id = some s)
    (admitted : NoRepark w (.move id .claim)) (stepped : sessionStep w id s .claim = some w') :
    Carried w' := by
  obtain ⟨chain, reader, holder, present⟩ := carried
  simp only [sessionStep] at stepped
  split at stepped
  · rename_i reading
    obtain ⟨resumed, untouched, -, latest⟩ := reader id s known reading
    have notHeld : s.phase.holds = false := by rw [reading]; rfl
    split at stepped
    · rename_i row
      have latest := latest (admitted s known reading row)
      have older := prefix_of_chain (chain s.token) latest
      cases stepped
      constructor <;> simp only [World.put]
      · exact chain
      · grind [Function.update_apply]
      · grind [Function.update_apply]
      · intro t parked accepted
        by_cases same : t = s.token
        · right
          exact ⟨id, { s with phase := .claimed }, by simp, rfl, same.symm⟩
        · rcases present t parked accepted with stored | held
          · left
            rwa [Function.update_of_ne same]
          · right
            exact held_put known (by simp [notHeld]) held
    · cases stepped
      constructor <;> simp only [World.put]
      · exact chain
      · grind [Function.update_apply]
      · grind [Function.update_apply, Phase.holds]
      · intro t parked accepted
        rcases present t parked accepted with stored | held
        · exact Or.inl stored
        · exact Or.inr (held_put known (by simp [notHeld]) held)
  · cases stepped

omit [DecidableEq ν] [DecidableEq τ] in
/-- A move inside the phases that hold a token keeps what the session carries. -/
theorem carried_put {s' : Session ν τ φ} {lock : ν → Bool} (carried : Carried w)
    (known : w.sessions id = some s) (reading : s'.phase ≠ .read)
    (holds : s'.phase.holds = true → s.phase.holds = true)
    (keeps : s.phase.holds = true → s'.phase.holds = true)
    (token : s'.token = s.token) (started : s'.started = s.started) (resumed : s'.resumed = s.resumed)
    (recorded : s.recorded <+: s'.recorded) :
    Carried { w.put id s' with resumeLock := lock } := by
  obtain ⟨chain, reader, holder, present⟩ := carried
  constructor <;> simp only [World.put]
  · exact chain
  · grind [Function.update_apply]
  · intro other session otherKnown otherHolds
    by_cases same : other = id
    · subst same
      simp only [Function.update_self, Option.some.injEq] at otherKnown
      subst otherKnown
      obtain ⟨first, second, third⟩ := holder other s known (holds otherHolds)
      rw [token, started, resumed]
      exact ⟨first.trans recorded, second, third⟩
    · rw [Function.update_of_ne same] at otherKnown
      exact holder other session otherKnown otherHolds
  · intro t parked accepted
    rcases present t parked accepted with stored | held
    · exact Or.inl stored
    · exact Or.inr (held_put known (fun wasHeld here => ⟨keeps wasHeld, token.trans here⟩) held)

/-- A park writes down everything that was parked before. -/
theorem carried_park (owned : Owned w) (carried : Carried w) (known : w.sessions id = some s)
    (stepped : sessionStep w id s .park = some w') : Carried w' := by
  obtain ⟨chain, reader, holder, present⟩ := carried
  simp only [sessionStep] at stepped
  split at stepped
  · rename_i ending
    have held : s.phase.holds = true := by rw [ending]; rfl
    obtain ⟨grown, older, -⟩ := holder id s known held
    cases stepped
    constructor <;> simp only [World.put]
    · intro t
      by_cases same : t = s.token
      · subst same
        rw [Function.update_self, List.pairwise_cons]
        exact ⟨fun row inside => (older row inside).trans grown, chain s.token⟩
      · rw [Function.update_of_ne same]
        exact chain t
    · grind [Function.update_apply]
    · have unique := owned.unique
      grind [Function.update_apply, Phase.holds]
    · intro t parked accepted
      by_cases same : t = s.token
      · subst same
        left
        simp
      · rw [Function.update_of_ne same] at parked
        rcases present t parked accepted with stored | elsewhere
        · left
          rwa [Function.update_of_ne same]
        · right
          exact held_put known (fun _ here => absurd here.symm same) elsewhere
  · cases stepped

/-- A park that is turned down gives the token up. -/
theorem carried_refuse (carried : Carried w) (known : w.sessions id = some s)
    (stepped : sessionStep w id s .refuse = some w') : Carried w' := by
  obtain ⟨chain, reader, holder, present⟩ := carried
  simp only [sessionStep] at stepped
  split at stepped
  · cases stepped
    constructor <;> simp only [World.put]
    · exact chain
    · grind [Function.update_apply]
    · grind [Function.update_apply, Phase.holds]
    · intro t parked accepted
      by_cases same : t = s.token
      · subst same
        simp at accepted
      · rw [Function.update_of_ne same] at accepted
        rcases present t parked accepted with stored | elsewhere
        · exact Or.inl stored
        · exact Or.inr (held_put known (fun _ here => absurd here.symm same) elsewhere)
  · cases stepped

theorem carried_sessionStep {move : Move φ} (owned : Owned w) (carried : Carried w)
    (known : w.sessions id = some s) (admitted : NoRepark w (.move id move))
    (stepped : sessionStep w id s move = some w') : Carried w' := by
  cases move with
  | claim => exact carried_claim carried known admitted stepped
  | park => exact carried_park owned carried known stepped
  | refuse => exact carried_refuse carried known stepped
  | insert =>
      simp only [sessionStep] at stepped
      split at stepped
      · rename_i claimed
        cases stepped
        apply carried_put carried known <;> simp [claimed, Phase.holds]
      · cases stepped
  | call fulfillment =>
      simp only [sessionStep] at stepped
      split at stepped
      · rename_i open_
        have reading : s.phase ≠ .read := by
          rcases open_ with live | ending
          · simp [live]
          · simp [ending]
        cases stepped
        exact carried_put carried known reading (fun held => held) (fun held => held) rfl rfl rfl
          (List.prefix_append _ _)
      · cases stepped
  | remove =>
      simp only [sessionStep] at stepped
      split at stepped
      · rename_i live
        cases stepped
        exact carried_put carried known (by simp) (by simp [live, Phase.holds])
          (by simp [Phase.holds]) rfl rfl rfl List.prefix_rfl
      · cases stepped
  | drop =>
      simp only [sessionStep] at stepped
      split at stepped
      · rename_i parked
        cases stepped
        exact carried_put carried known (by simp) (by simp [Phase.holds])
          (by simp [parked, Phase.holds]) rfl rfl rfl List.prefix_rfl
      · cases stepped

omit [DecidableEq ν] [DecidableEq τ] in
/-- A new session leaves every held token held. -/
theorem held_add {session : Session ν τ φ} {t : τ} (owned : Owned w) (held : Held w t) :
    Held (w.add session) t := by
  obtain ⟨other, holder, known, holds, token⟩ := held
  have old : other ≠ w.next := by
    intro same
    rw [same, owned.fresh w.next (Nat.le_refl _)] at known
    cases known
  exact ⟨other, holder, by simp [World.add, World.put, old, known], holds, token⟩

theorem carried_step {act : Act ν τ φ} (owned : Owned w) (carried : Carried w)
    (admitted : NoRepark w act) (stepped : step w act = some w') : Carried w' := by
  cases act with
  | move id move =>
      obtain ⟨s, known, stepped⟩ := Option.bind_eq_some_iff.mp stepped
      exact carried_sessionStep owned carried known admitted stepped
  | sign server token =>
      simp only [step] at stepped
      split at stepped
      · cases stepped
      · rename_i fresh
        have unparked := (owned.parked token (by simpa using fresh)).2
        cases stepped
        constructor <;> simp only [World.add, World.put, signed]
        · exact carried.chain
        · have reader := carried.reader
          grind [Function.update_apply]
        · have holder := carried.holder
          grind [Function.update_apply]
        · intro t parked accepted
          rcases carried.present t parked accepted with stored | held
          · exact Or.inl stored
          · exact Or.inr (held_add owned held)
  | read server token =>
      simp only [step] at stepped
      split at stepped
      · cases stepped
      · split at stepped
        · cases stepped
          exact carried
        · rename_i row stored
          have latest := owned.latest token row stored
          cases stepped
          constructor <;> simp only [World.add, World.put, built]
          · exact carried.chain
          · have reader := carried.reader
            grind [Function.update_apply]
          · have holder := carried.holder
            grind [Function.update_apply, Phase.holds]
          · intro t parked accepted
            rcases carried.present t parked accepted with stored | held
            · exact Or.inl stored
            · exact Or.inr (held_add owned held)

end Steps

/-! ### Whole runs -/

/-- At most one session of a token is in a table. -/
def AtMostOneLive (w : World ν τ φ) : Prop :=
  ∀ id s id' s', w.sessions id = some s → w.sessions id' = some s' →
    s.phase = .live → s'.phase = .live → s.token = s'.token → id = id'

/-- No resumption went back: a resumed session started from the most recent park of
its token, the session or the row that has the token now carries every fulfillment
any park of it wrote, and a token that was parked is still in one of the two
unless a later park was turned down. -/
structure NothingLost (w : World ν τ φ) : Prop where
  fromLatest : ∀ id s, w.sessions id = some s → s.phase.holds = true → s.resumed = true →
    (w.parks s.token).head? = some s.started
  session : ∀ id s, w.sessions id = some s → s.phase.holds = true →
    ∀ row ∈ w.parks s.token, row <+: s.recorded
  row : ∀ t stored, w.store t = some stored → ∀ row ∈ w.parks t, row <+: stored
  present : ∀ t, w.parks t ≠ [] → w.refused t = false → (w.store t).isSome = true ∨ Held w t

omit [DecidableEq ν] [DecidableEq τ] in
theorem Owned.atMostOneLive {w : World ν τ φ} (owned : Owned w) : AtMostOneLive w := by
  intro id s id' s' known known' live live' token
  exact owned.unique id s id' s' known known' (by rw [live]; rfl) (by rw [live']; rfl) token

omit [DecidableEq ν] [DecidableEq τ] in
theorem Carried.nothingLost {w : World ν τ φ} (owned : Owned w) (carried : Carried w) :
    NothingLost w where
  fromLatest id s known holds := (carried.holder id s known holds).2.2
  session id s known holds row inside :=
    let held := carried.holder id s known holds
    (held.2.1 row inside).trans held.1
  row t stored here := prefix_of_chain (carried.chain t) (owned.latest t stored here)
  present := carried.present

/-- What a run without a delete of somebody else's row keeps. -/
def Kept (w : World ν τ φ) : Prop := Owned w ∧ Carried w

theorem kept_step (w : World ν τ φ) (act : Act ν τ φ) (w' : World ν τ φ) (kept : Kept w)
    (admitted : NoRepark w act) (stepped : step w act = some w') : Kept w' :=
  ⟨owned_step kept.1 stepped, carried_step kept.1 kept.2 admitted stepped⟩

/-- In every run of any number of servers, at most one session of a token is live;
and in every run whose deletes remove no row parked since their `Resume` read it,
nothing is lost. -/
theorem resume_oneShot (acts : List (Act ν τ φ)) (last : World ν τ φ)
    (ran : run step empty acts = some last) :
    AtMostOneLive last ∧ (Guarded step NoRepark empty acts → NothingLost last) := by
  have owned : Owned last :=
    run_invariant (fun _ _ _ owned _ stepped => owned_step owned stepped) owned_empty
      (guarded_true empty acts) ran
  refine ⟨owned.atMostOneLive, fun guarded => ?_⟩
  have kept : Kept last := run_invariant kept_step ⟨owned_empty, carried_empty⟩ guarded ran
  exact kept.2.nothingLost kept.1

/-- A session that records one fulfillment and parks, and its resumption on another
server. -/
def parkedAndResumed : List (Act Bool Unit Nat) :=
  [.sign false (), .move 0 (.call 1), .move 0 .remove, .move 0 .park, .move 0 .drop,
    .read true (), .move 1 .claim, .move 1 .insert]

/-- A resumption with nobody in its way starts from the park. -/
theorem resume_oneShot_parked :
    ∃ last, run step empty parkedAndResumed = some last ∧ AtMostOneLive last ∧ NothingLost last := by
  obtain ⟨last, ran⟩ : ∃ last, run step empty parkedAndResumed = some last := ⟨_, rfl⟩
  have guarded : Guarded step NoRepark empty parkedAndResumed := by
    iterate 6
      refine ⟨trivial, fun next stepped => ?_⟩
      obtain rfl := Option.some.inj stepped
    refine ⟨fun s known _ _ => ?_, fun next stepped => ⟨trivial, fun _ _ => trivial⟩⟩
    obtain rfl := Option.some.inj known
    rfl
  have both := resume_oneShot parkedAndResumed last ran
  exact ⟨last, ran, both.1, both.2 guarded⟩

/-- Two servers read the row of one token.  The second claims it, records another
fulfillment and parks again; the first then deletes the new row. -/
def staleClaim : List (Act Bool Unit Nat) :=
  [.sign false (), .move 0 (.call 1), .move 0 .remove, .move 0 .park, .move 0 .drop,
    .read false (), .read true (), .move 2 .claim, .move 2 .insert, .move 2 (.call 2),
    .move 2 .remove, .move 2 .park, .move 2 .drop, .move 1 .claim, .move 1 .insert]

/-- The first server's session is live on the older park, and the row with the second
fulfillment is gone. -/
theorem staleClaim_loses :
    ∃ last, run step empty staleClaim = some last ∧ ¬ NothingLost last ∧
      last.store () = none ∧ last.parks () = [[1, 2], [1]] ∧
      ∃ s, last.sessions 1 = some s ∧ s.phase = .live ∧ s.recorded = [1] := by
  refine ⟨_, rfl, ?_, rfl, rfl, _, rfl, rfl, rfl⟩
  intro nothingLost
  have latest := nothingLost.fromLatest 1 _ rfl rfl rfl
  exact absurd latest (by decide)

end Geas.Interop
