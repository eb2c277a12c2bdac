import Geas.Compiler.TyCompat
import Geas.Lib.Interner

/-!
# The type arena

Every checked type is one node of an arena, found again by its canonical spelling, so the
checker compares types by comparing numbers.

A node is read as the type that it is the root of.  The arena is then a table of types, each
once, and a constructor call finds its type in the table or puts it at the end.  That rests
on the spelling: no two types share one.
-/

namespace Geas.Compiler

open Geas.Runtime (CString ascii)
open Geas.Lib.Delimited (separated)
open Geas.Lib.Interner (intern intern_extends intern_get getElem?_of_prefix)

/-- A node.  Which of its numbers are used, and for what, depends on the kind. -/
structure TyNode where
  kind : TyKind
  a : Nat
  b : Nat
  off : Nat
  len : Nat
  deriving DecidableEq, Repr

structure TyArena where
  nodes : List TyNode
  kids : List Nat
  canons : List Nat
  interner : List CString
  ids : CString → Option Nat

namespace TyArena

def tyArenaNew : TyArena := ⟨[], [], [], [], fun _ => none⟩

/-- Reading past the end of a vector has no answer. -/
def tyGet (t : TyArena) (id : Nat) : Option TyNode := t.nodes[id]?

/-! ### Spelling and interning -/

def leafCode : TyKind → CString
  | .int => ascii "I"
  | .uint => ascii "U"
  | .float => ascii "F"
  | .bool => ascii "B"
  | .byte => ascii "Y"
  | .char => ascii "C"
  | .str => ascii "S"
  | .unit => ascii "V"
  | _ => ascii "?"

def pushCanon (t : TyArena) (id : Nat) : Option CString := do
  let cid ← t.canons[id]?
  t.interner[cid]?

/-- The loop over the kids of a tuple or a pledge, at the kid `i` with `count` to go. -/
def pushCanons (t : TyArena) (off : Nat) : (count i : Nat) → Option CString
  | 0, _ => some []
  | count + 1, i => do
      let kid ← t.kids[off + i]?
      let text ← t.pushCanon kid
      let rest ← pushCanons t off count (i + 1)
      return (if 0 < i then ascii "," else []) ++ text ++ rest

def tyCanon (t : TyArena) (n : TyNode) : Option CString :=
  match n.kind with
  | .list => do return ascii "L(" ++ (← t.pushCanon n.a) ++ ascii ")"
  | .option => do return ascii "O(" ++ (← t.pushCanon n.a) ++ ascii ")"
  | .map => do
      return ascii "M(" ++ (← t.pushCanon n.a) ++ ascii "," ++ (← t.pushCanon n.b) ++ ascii ")"
  | .result => do
      return ascii "R(" ++ (← t.pushCanon n.a) ++ ascii "," ++ (← t.pushCanon n.b) ++ ascii ")"
  | .tuple => do return ascii "T(" ++ (← t.pushCanons n.off n.len 0) ++ ascii ")"
  | .pledge => do
      return ascii "P(" ++ (← t.pushCanons n.off n.len 0) ++ ascii ")->" ++ (← t.pushCanon n.a)
  | .named => do return ascii "N" ++ (← t.interner[n.a]?)
  | .contract => do return ascii "K" ++ (← t.interner[n.a]?)
  | kind => some (leafCode kind)

def tyIntern (t : TyArena) (n : TyNode) : Option (Nat × TyArena) := do
  let c ← t.tyCanon n
  let (cid, interner) := intern t.interner c
  let key ← interner[cid]?
  match t.ids key with
  | some id => return (id, { t with interner })
  | none =>
      let id := t.nodes.length
      return (id, { t with
        interner
        nodes := t.nodes ++ [n]
        canons := t.canons ++ [cid]
        ids := fun text => if text = key then some id else t.ids text })

/-! ### The constructors -/

/-- `ty_kids`: the offset and the length of the kids, and the arena with them. -/
def tyKids (t : TyArena) (src : List Nat) : (Nat × Nat) × TyArena :=
  ((t.kids.length, src.length), { t with kids := t.kids ++ src })

def leaf (t : TyArena) (k : TyKind) : Option (Nat × TyArena) := t.tyIntern ⟨k, 0, 0, 0, 0⟩

def tyInt (t : TyArena) := t.leaf .int
def tyUint (t : TyArena) := t.leaf .uint
def tyFloat (t : TyArena) := t.leaf .float
def tyBool (t : TyArena) := t.leaf .bool
def tyByte (t : TyArena) := t.leaf .byte
def tyChar (t : TyArena) := t.leaf .char
def tyStr (t : TyArena) := t.leaf .str
def tyUnit (t : TyArena) := t.leaf .unit
def tyUnknown (t : TyArena) := t.leaf .unknown

def tyList (t : TyArena) (elem : Nat) := t.tyIntern ⟨.list, elem, 0, 0, 0⟩

def tyMap (t : TyArena) (key val : Nat) := t.tyIntern ⟨.map, key, val, 0, 0⟩

def tyOption (t : TyArena) (inner : Nat) := t.tyIntern ⟨.option, inner, 0, 0, 0⟩

def tyResult (t : TyArena) (ok err : Nat) := t.tyIntern ⟨.result, ok, err, 0, 0⟩

def tyTuple (t : TyArena) (xs : List Nat) : Option (Nat × TyArena) :=
  let ((off, len), t) := t.tyKids xs
  t.tyIntern ⟨.tuple, 0, 0, off, len⟩

def tyPledgeTy (t : TyArena) (ps : List Nat) (ret : Nat) : Option (Nat × TyArena) :=
  let ((off, len), t) := t.tyKids ps
  t.tyIntern ⟨.pledge, ret, 0, off, len⟩

def tyNamed (t : TyArena) (name : CString) : Option (Nat × TyArena) :=
  let (nid, interner) := intern t.interner name
  tyIntern { t with interner } ⟨.named, nid, 0, 0, 0⟩

def tyContract (t : TyArena) (name : CString) : Option (Nat × TyArena) :=
  let (nid, interner) := intern t.interner name
  tyIntern { t with interner } ⟨.contract, nid, 0, 0, 0⟩

/-- A constructor call.  Types are passed by their ids; a name is an identifier. -/
inductive TyCall where
  | int | uint | float | bool | byte | char | str | unit | unknown
  | list (elem : Nat)
  | map (key val : Nat)
  | option (inner : Nat)
  | result (ok err : Nat)
  | tuple (xs : List Nat)
  | pledgeTy (ps : List Nat) (ret : Nat)
  | named (name : Ident)
  | contract (name : Ident)

/-- The ids passed to a call. -/
def TyCall.args : TyCall → List Nat
  | .list elem => [elem]
  | .map key val => [key, val]
  | .option inner => [inner]
  | .result ok err => [ok, err]
  | .tuple xs => xs
  | .pledgeTy ps ret => ps ++ [ret]
  | _ => []

/-- Make a call: the id it returns and the arena after it. -/
def call (t : TyArena) : TyCall → Option (Nat × TyArena)
  | .int => t.tyInt
  | .uint => t.tyUint
  | .float => t.tyFloat
  | .bool => t.tyBool
  | .byte => t.tyByte
  | .char => t.tyChar
  | .str => t.tyStr
  | .unit => t.tyUnit
  | .unknown => t.tyUnknown
  | .list elem => t.tyList elem
  | .map key val => t.tyMap key val
  | .option inner => t.tyOption inner
  | .result ok err => t.tyResult ok err
  | .tuple xs => t.tyTuple xs
  | .pledgeTy ps ret => t.tyPledgeTy ps ret
  | .named name => t.tyNamed name.text
  | .contract name => t.tyContract name.text

/-- Make calls one after the other, with the ids they return. -/
def runCalls (t : TyArena) : List TyCall → Option (List Nat × TyArena)
  | [] => some ([], t)
  | c :: calls => do
      let (id, t) ← t.call c
      let (ids, t) ← runCalls t calls
      return (id :: ids, t)

/-! ### Compatibility -/

/-- The loop over the kids of two nodes, at the kids `i` with `count` to go. -/
def compatKids (t : TyArena) (compat : Nat → Nat → Option Bool) (aOff bOff : Nat) :
    (count i : Nat) → Option Bool
  | 0, _ => some true
  | count + 1, i => do
      let a ← t.kids[aOff + i]?
      let b ← t.kids[bOff + i]?
      if !(← compat a b) then return false
      compatKids t compat aOff bOff count (i + 1)

/-- `compat`, to a bounded depth of calls. -/
def compat (t : TyArena) : Nat → Nat → Nat → Option Bool
  | 0, _, _ => none
  | depth + 1, a, b => do
      if a = b then return true
      let na ← t.tyGet a
      let nb ← t.tyGet b
      if na.kind = .unknown ∨ nb.kind = .unknown then return true
      if na.kind ≠ nb.kind then return false
      match na.kind with
      | .list | .option => compat t depth na.a nb.a
      | .map | .result =>
          if !(← compat t depth na.a nb.a) then return false
          compat t depth na.b nb.b
      | .tuple =>
          if na.len ≠ nb.len then return false
          compatKids t (compat t depth) na.off nb.off na.len 0
      | .pledge =>
          if na.len ≠ nb.len then return false
          if !(← compatKids t (compat t depth) na.off nb.off na.len 0) then return false
          compat t depth na.a nb.a
      | _ => return false

/-! ### Reading a node as a type -/

/-- The identifier behind the number of a name. -/
def nameAt (t : TyArena) (nid : Nat) : Option Ident := do
  let text ← t.interner[nid]?
  if lexes : lexesAsIdent text = true then some ⟨text, lexes⟩ else none

/-- The types of the kids of a node from the kid `i` on, with `count` to go. -/
def kidTys (t : TyArena) (types : Nat → Option Ty) (off : Nat) : (count i : Nat) → Option (List Ty)
  | 0, _ => some []
  | count + 1, i => do
      let kid ← t.kids[off + i]?
      let ty ← types kid
      let rest ← kidTys t types off count (i + 1)
      return ty :: rest

/-- The type of a node, from the types of its children. -/
def nodeTy (t : TyArena) (types : Nat → Option Ty) (n : TyNode) : Option Ty :=
  match n.kind with
  | .int => some .int
  | .uint => some .uint
  | .float => some .float
  | .bool => some .bool
  | .byte => some .byte
  | .char => some .char
  | .str => some .str
  | .unit => some .unit
  | .unknown => some .unknown
  | .list => do return .list (← types n.a)
  | .option => do return .option (← types n.a)
  | .map => do return .map (← types n.a) (← types n.b)
  | .result => do return .result (← types n.a) (← types n.b)
  | .tuple => do return .tuple (← t.kidTys types n.off n.len 0)
  | .pledge => do return .pledge (← t.kidTys types n.off n.len 0) (← types n.a)
  | .named => do return .named (← t.nameAt n.a)
  | .contract => do return .contract (← t.nameAt n.a)

/-- The type under an id, read to a bounded depth. -/
def tyUnder (t : TyArena) : Nat → Nat → Option Ty
  | 0, _ => none
  | depth + 1, id => do t.nodeTy (tyUnder t depth) (← t.tyGet id)

/-- The type under an id.  Children come before their parents, so the id bounds the depth. -/
def typeOf (t : TyArena) (id : Nat) : Option Ty := t.tyUnder (id + 1) id

/-- The type that a call asks for, from the types under the ids passed to it. -/
def asked (types : Nat → Option Ty) : TyCall → Option Ty
  | .int => some .int
  | .uint => some .uint
  | .float => some .float
  | .bool => some .bool
  | .byte => some .byte
  | .char => some .char
  | .str => some .str
  | .unit => some .unit
  | .unknown => some .unknown
  | .list elem => do return .list (← types elem)
  | .map key val => do return .map (← types key) (← types val)
  | .option inner => do return .option (← types inner)
  | .result ok err => do return .result (← types ok) (← types err)
  | .tuple xs => do return .tuple (← xs.mapM types)
  | .pledgeTy ps ret => do return .pledge (← ps.mapM types) (← types ret)
  | .named name => some (.named name)
  | .contract name => some (.contract name)

/-- One arena has everything that another has, at the same places. -/
structure Extends (t t' : TyArena) : Prop where
  nodes : t.nodes <+: t'.nodes
  kids : t.kids <+: t'.kids
  interner : t.interner <+: t'.interner

variable {t t' : TyArena} {types types' : Nat → Option Ty} {n : TyNode} {ty : Ty}

theorem Extends.refl (t : TyArena) : Extends t t :=
  ⟨List.prefix_rfl, List.prefix_rfl, List.prefix_rfl⟩

theorem Extends.trans {t'' : TyArena} (first : Extends t t') (second : Extends t' t'') :
    Extends t t'' :=
  ⟨first.nodes.trans second.nodes, first.kids.trans second.kids,
    first.interner.trans second.interner⟩

theorem nameAt_mono (grows : t.interner <+: t'.interner) {nid : Nat} {name : Ident}
    (here : t.nameAt nid = some name) : t'.nameAt nid = some name := by
  simp only [nameAt, Option.bind_eq_bind, Option.bind_eq_some_iff] at here ⊢
  obtain ⟨text, found, lexed⟩ := here
  exact ⟨text, getElem?_of_prefix grows found, lexed⟩

theorem kidTys_mono (kids : t.kids <+: t'.kids)
    (more : ∀ k ty, types k = some ty → types' k = some ty)
    {off count i : Nat} {tys : List Ty} (here : t.kidTys types off count i = some tys) :
    t'.kidTys types' off count i = some tys := by
  induction count generalizing i tys with
  | zero => exact here
  | succ count ih =>
      simp only [kidTys, Option.bind_eq_bind, Option.bind_eq_some_iff, Option.pure_def,
        Option.some.injEq] at here ⊢
      obtain ⟨kid, found, ty, typed, rest, behind, rfl⟩ := here
      exact ⟨kid, getElem?_of_prefix kids found, ty, more kid ty typed, rest, ih behind, rfl⟩

/-- A node is read as the same type in an arena with more in it. -/
theorem nodeTy_mono (kids : t.kids <+: t'.kids) (names : t.interner <+: t'.interner)
    (more : ∀ k ty, types k = some ty → types' k = some ty) (here : t.nodeTy types n = some ty) :
    t'.nodeTy types' n = some ty := by
  unfold nodeTy at here ⊢
  cases kind : n.kind with
  | list | option =>
      simp only [kind, Option.bind_eq_bind, Option.bind_eq_some_iff, Option.pure_def] at here ⊢
      obtain ⟨first, one, whole⟩ := here
      exact ⟨first, more _ _ one, whole⟩
  | map | result =>
      simp only [kind, Option.bind_eq_bind, Option.bind_eq_some_iff, Option.pure_def] at here ⊢
      obtain ⟨first, one, second, two, whole⟩ := here
      exact ⟨first, more _ _ one, second, more _ _ two, whole⟩
  | tuple =>
      simp only [kind, Option.bind_eq_bind, Option.bind_eq_some_iff, Option.pure_def] at here ⊢
      obtain ⟨elems, all, whole⟩ := here
      exact ⟨elems, kidTys_mono kids more all, whole⟩
  | pledge =>
      simp only [kind, Option.bind_eq_bind, Option.bind_eq_some_iff, Option.pure_def] at here ⊢
      obtain ⟨params, all, ret, one, whole⟩ := here
      exact ⟨params, kidTys_mono kids more all, ret, more _ _ one, whole⟩
  | named | contract =>
      simp only [kind, Option.bind_eq_bind, Option.bind_eq_some_iff, Option.pure_def] at here ⊢
      obtain ⟨name, found, whole⟩ := here
      exact ⟨name, nameAt_mono names found, whole⟩
  | _ =>
      simp only [kind] at here ⊢
      exact here

theorem nodeTy_kind (here : t.nodeTy types n = some ty) : ty.kind = n.kind := by
  unfold nodeTy at here
  cases kind : n.kind <;>
    simp only [kind, Option.bind_eq_bind, Option.bind_eq_some_iff, Option.pure_def,
      Option.some.injEq] at here <;> grind [Ty.kind]

/-! ### Spelling a node -/

theorem canon_inj {left right : Ty} (same : left.canon = right.canon) : left = right :=
  (Ty.readsAt_canon left right [] [] trivial trivial (by rw [same])).1

theorem pushCanons_eq (spelled : ∀ id, t.pushCanon id = (types id).map Ty.canon)
    (off count i : Nat) :
    t.pushCanons off count i = (t.kidTys types off count i).map fun tys =>
      if 0 < i then tys.flatMap (fun ty => 44 :: ty.canon) else separated 44 Ty.canon tys := by
  induction count generalizing i with
  | zero => simp [pushCanons, kidTys, separated]
  | succ count ih =>
      rw [pushCanons, kidTys]
      cases t.kids[off + i]? with
      | none => rfl
      | some kid =>
          simp only [Option.bind_eq_bind, Option.bind_some, spelled, ih]
          cases types kid with
          | none => rfl
          | some ty =>
              cases t.kidTys types off count (i + 1) with
              | none => rfl
              | some rest =>
                  by_cases first : 0 < i
                  · simp [first, ascii]
                  · simp [first, separated]

/-- The spelling of a node is the spelling of its type. -/
theorem tyCanon_eq (spelled : ∀ id, t.pushCanon id = (types id).map Ty.canon)
    (named : n.kind = .named ∨ n.kind = .contract → ∃ name, t.nameAt n.a = some name) :
    t.tyCanon n = (t.nodeTy types n).map Ty.canon := by
  unfold tyCanon nodeTy
  cases kind : n.kind with
  | list | option =>
      simp only [spelled]
      cases types n.a <;> rfl
  | map | result =>
      simp only [spelled]
      cases types n.a <;> cases types n.b <;> rfl
  | tuple =>
      simp only [pushCanons_eq spelled]
      cases t.kidTys types n.off n.len 0 with
      | none => rfl
      | some elems => simp [Ty.canon, Ty.commas_canons, Ty.code, ascii]
  | pledge =>
      simp only [pushCanons_eq spelled, spelled]
      cases t.kidTys types n.off n.len 0 with
      | none => rfl
      | some params =>
          cases types n.a with
          | none => rfl
          | some ret => simp [Ty.canon, Ty.commas_canons, Ty.code, ascii]
  | named | contract =>
      obtain ⟨name, found⟩ := named (by simp [kind])
      have text : t.interner[n.a]? = some name.text := by
        simp only [nameAt, Option.bind_eq_bind, Option.bind_eq_some_iff] at found
        obtain ⟨text, here, lexed⟩ := found
        split at lexed
        · cases lexed
          exact here
        · cases lexed
      simp only [found, text]
      rfl
  | _ => rfl

/-! ### The arena as a table of types -/

/-- An arena is a table of types: under an id is the type at its place, spelled by its node,
which has earlier children; and a type is found by its spelling. -/
structure Holds (t : TyArena) (tys : List Ty) : Prop where
  size : t.nodes.length = tys.length
  canons : t.canons.length = tys.length
  reads : ∀ id ty, tys[id]? = some ty →
    ∃ n, t.tyGet id = some n ∧ t.nodeTy (fun k => (tys.take id)[k]?) n = some ty
  spelled : ∀ id, t.pushCanon id = tys[id]?.map Ty.canon
  found : ∀ id ty, tys[id]? = some ty → t.ids ty.canon = some id
  fresh : ∀ ty, ty ∉ tys → t.ids ty.canon = none

namespace Holds

variable {tys : List Ty}

theorem new : Holds tyArenaNew [] where
  size := rfl
  canons := rfl
  reads := by simp
  spelled := by simp [pushCanon, tyArenaNew]
  found := by simp
  fresh := fun _ _ => rfl

/-- The spelling of an id is still read when the interner has more in it. -/
theorem spelled_mono (holds : Holds t tys) {names : List CString} (grows : t.interner <+: names)
    {id cid : Nat} (here : t.canons[id]? = some cid) : names[cid]? = tys[id]?.map Ty.canon := by
  have spelled := holds.spelled id
  have inside : id < tys.length := holds.canons ▸ (List.getElem?_eq_some_iff.mp here).1
  simp only [pushCanon, here, Option.bind_eq_bind, Option.bind_some,
    List.getElem?_eq_getElem inside, Option.map_some] at spelled ⊢
  exact getElem?_of_prefix grows spelled

/-- More kids and more names change no type. -/
theorem grow (holds : Holds t tys) {kids : List Nat} {names : List CString}
    (more : t.kids <+: kids) (grows : t.interner <+: names) :
    Holds { t with kids := kids, interner := names } tys where
  size := holds.size
  canons := holds.canons
  reads := by
    intro id ty here
    obtain ⟨n, node, typed⟩ := holds.reads id ty here
    exact ⟨n, node, nodeTy_mono more grows (fun _ _ same => same) typed⟩
  spelled := by
    intro id
    cases here : t.canons[id]? with
    | none =>
        have past : tys.length ≤ id := holds.canons ▸ List.getElem?_eq_none_iff.mp here
        simp [pushCanon, here, List.getElem?_eq_none past]
    | some cid => simpa [pushCanon, here] using holds.spelled_mono grows here
  found := holds.found
  fresh := holds.fresh

theorem nodup (holds : Holds t tys) {i j : Nat} {ty : Ty} (first : tys[i]? = some ty)
    (second : tys[j]? = some ty) : i = j :=
  Option.some.inj ((holds.found i ty first).symm.trans (holds.found j ty second))

/-- A type that is not in the table is put at its end. -/
theorem push (holds : Holds t tys) {names : List CString} {cid : Nat} {n : TyNode} {ty : Ty}
    (grows : t.interner <+: names) (spelled : names[cid]? = some ty.canon)
    (reads : t.nodeTy (fun k => tys[k]?) n = some ty) (fresh : ty ∉ tys) :
    Holds
      { t with
        interner := names
        nodes := t.nodes ++ [n]
        canons := t.canons ++ [cid]
        ids := fun text => if text = ty.canon then some t.nodes.length else t.ids text }
      (tys ++ [ty]) where
  size := by simp [holds.size]
  canons := by simp [holds.canons]
  reads := by
    intro id ty' here
    rcases Nat.lt_or_ge id tys.length with old | new
    · rw [List.getElem?_append_left old] at here
      obtain ⟨node, found, typed⟩ := holds.reads id ty' here
      refine ⟨node, getElem?_of_prefix (List.prefix_append _ _) found, ?_⟩
      rw [List.take_append_of_le_length (Nat.le_of_lt old)]
      exact nodeTy_mono (t := t) List.prefix_rfl grows (fun _ _ same => same) typed
    · rw [List.getElem?_append_right new, List.getElem?_singleton] at here
      split at here
      · rename_i zero
        cases here
        obtain rfl : id = tys.length := by omega
        refine ⟨n, by simp [tyGet, ← holds.size], ?_⟩
        rw [List.take_append_of_le_length (Nat.le_refl _), List.take_length]
        exact nodeTy_mono (t := t) List.prefix_rfl grows (fun _ _ same => same) reads
      · cases here
  spelled := by
    intro id
    rcases Nat.lt_trichotomy id tys.length with old | last | past
    · have cid' := List.getElem?_eq_getElem (holds.canons ▸ old : id < t.canons.length)
      rw [List.getElem?_append_left old]
      simp only [pushCanon, List.getElem?_append_left (holds.canons ▸ old : id < t.canons.length),
        cid', Option.bind_eq_bind, Option.bind_some]
      exact holds.spelled_mono grows cid'
    · subst last
      simp [pushCanon, ← holds.canons, spelled]
    · rw [List.getElem?_eq_none (by rw [List.length_append]; exact past)]
      have none : (t.canons ++ [cid])[id]? = none :=
        List.getElem?_eq_none (by rw [List.length_append, holds.canons]; exact past)
      simp [pushCanon, none]
  found := by
    intro id ty' here
    rcases Nat.lt_or_ge id tys.length with old | new
    · rw [List.getElem?_append_left old] at here
      have other : ty'.canon ≠ ty.canon := by
        intro same
        rw [canon_inj same] at here
        exact fresh (List.mem_of_getElem? here)
      exact (if_neg other).trans (holds.found id ty' here)
    · rw [List.getElem?_append_right new, List.getElem?_singleton] at here
      split at here
      · cases here
        refine (if_pos rfl).trans (congrArg some ?_)
        have size := holds.size
        omega
      · cases here
  fresh := by
    intro ty' outside
    rw [List.mem_append, List.mem_singleton, not_or] at outside
    exact (if_neg fun same => outside.2 (canon_inj same)).trans (holds.fresh ty' outside.1)

/-- What a constructor call does to an arena: it answers the place of a type, where it was or
at the end, and everything else stays where it is. -/
structure Interned (t : TyArena) (tys : List Ty) (ty : Ty) (id : Nat) (t' : TyArena)
    (tys' : List Ty) : Prop where
  holds : Holds t' tys'
  grows : tys <+: tys'
  extends_ : Extends t t'
  place : tys'[id]? = some ty

/-- Interning a node answers the place of its type. -/
theorem tyIntern (holds : Holds t tys) {n : TyNode} {ty : Ty}
    (named : n.kind = .named ∨ n.kind = .contract → ∃ name, t.nameAt n.a = some name)
    (reads : t.nodeTy (fun k => tys[k]?) n = some ty) :
    ∃ id t' tys', t.tyIntern n = some (id, t') ∧ Interned t tys ty id t' tys' := by
  have spelled : t.tyCanon n = some ty.canon := by
    rw [tyCanon_eq holds.spelled named, reads, Option.map_some]
  have grows := intern_extends t.interner ty.canon
  have key := intern_get t.interner ty.canon
  by_cases inside : ty ∈ tys
  · obtain ⟨id, here⟩ := List.mem_iff_getElem?.mp inside
    refine ⟨id, _, tys, ?_, holds.grow List.prefix_rfl grows, List.prefix_rfl,
      ⟨?_, ?_, grows⟩, here⟩
    · simp only [TyArena.tyIntern, spelled, key, Option.bind_eq_bind, Option.bind_some,
        holds.found id ty here]
      rfl
    · exact List.prefix_rfl
    · exact List.prefix_rfl
  · refine ⟨t.nodes.length, _, tys ++ [ty], ?_, holds.push grows key reads inside,
      List.prefix_append _ _, ⟨List.prefix_append _ _, List.prefix_rfl, grows⟩, ?_⟩
    · simp only [TyArena.tyIntern, spelled, key, Option.bind_eq_bind, Option.bind_some,
        holds.fresh ty inside]
      rfl
    · rw [holds.size, List.getElem?_concat_length]

/-- A node that is interned has a type. -/
theorem reads_of_tyIntern (holds : Holds t tys) {n : TyNode} {answer : Nat × TyArena}
    (named : n.kind = .named ∨ n.kind = .contract → ∃ name, t.nameAt n.a = some name)
    (interned : t.tyIntern n = some answer) : ∃ ty, t.nodeTy (fun k => tys[k]?) n = some ty := by
  simp only [TyArena.tyIntern, tyCanon_eq holds.spelled named, Option.bind_eq_bind,
    Option.bind_eq_some_iff, Option.map_eq_some_iff] at interned
  obtain ⟨_, ⟨ty, reads, _⟩, _⟩ := interned
  exact ⟨ty, reads⟩

end Holds

/-! ### Calls -/

theorem kidTys_eq_mapM {off i : Nat} {xs : List Nat} (here : t.kids.drop (off + i) = xs) :
    t.kidTys types off xs.length i = xs.mapM types := by
  induction xs generalizing i with
  | nil => rfl
  | cons x xs ih =>
      have first : t.kids[off + i]? = some x := by
        rw [← List.head?_drop, here, List.head?_cons]
      have rest : t.kids.drop (off + (i + 1)) = xs := by
        rw [← Nat.add_assoc, ← List.tail_drop, here, List.tail_cons]
      rw [List.length_cons, kidTys, first, List.mapM_cons]
      simp only [Option.bind_eq_bind, Option.bind_some, ih rest]

theorem nameAt_intern (name : Ident) :
    ({ t with interner := (intern t.interner name.text).2 } : TyArena).nameAt
      (intern t.interner name.text).1 = some name := by
  have text := intern_get t.interner name.text
  simp only [nameAt, text, Option.bind_eq_bind, Option.bind_some]
  rw [dif_pos name.lexes]

/-- A call interns one node, of the type that it asks for, after it put its kids or its name
into the arena. -/
theorem call_node {tys : List Ty} (holds : Holds t tys) (c : TyCall) :
    ∃ t₁ n, t.call c = t₁.tyIntern n ∧ Holds t₁ tys ∧ Extends t t₁ ∧
      (∀ types, t₁.nodeTy types n = asked types c) ∧
      (n.kind = .named ∨ n.kind = .contract → ∃ name, t₁.nameAt n.a = some name) := by
  have withKids (xs : List Nat) : Holds { t with kids := t.kids ++ xs } tys :=
    holds.grow (List.prefix_append _ _) List.prefix_rfl
  have moreKids (xs : List Nat) : Extends t { t with kids := t.kids ++ xs } :=
    ⟨List.prefix_rfl, List.prefix_append _ _, List.prefix_rfl⟩
  have readKids (xs : List Nat) (types : Nat → Option Ty) :
      ({ t with kids := t.kids ++ xs } : TyArena).kidTys types t.kids.length xs.length 0 =
        xs.mapM types := kidTys_eq_mapM List.drop_left
  have withName (name : Ident) :=
    holds.grow List.prefix_rfl (intern_extends t.interner name.text)
  have moreNames (name : Ident) :
      Extends t { t with interner := (intern t.interner name.text).2 } :=
    ⟨List.prefix_rfl, List.prefix_rfl, intern_extends _ _⟩
  cases c with
  | tuple xs =>
      refine ⟨_, _, rfl, withKids xs, moreKids xs, fun types => ?_, by simp⟩
      simp only [nodeTy, asked, readKids]
  | pledgeTy ps ret =>
      refine ⟨_, _, rfl, withKids ps, moreKids ps, fun types => ?_, by simp⟩
      simp only [nodeTy, asked, readKids]
  | named name =>
      refine ⟨{ t with interner := (intern t.interner name.text).2 },
        ⟨.named, (intern t.interner name.text).1, 0, 0, 0⟩, rfl, withName name, moreNames name,
        fun types => ?_, fun _ => ⟨name, nameAt_intern name⟩⟩
      simp only [nodeTy, nameAt_intern]
      rfl
  | contract name =>
      refine ⟨{ t with interner := (intern t.interner name.text).2 },
        ⟨.contract, (intern t.interner name.text).1, 0, 0, 0⟩, rfl, withName name, moreNames name,
        fun types => ?_, fun _ => ⟨name, nameAt_intern name⟩⟩
      simp only [nodeTy, nameAt_intern]
      rfl
  | _ => exact ⟨t, _, rfl, holds, .refl t, fun _ => rfl, by simp⟩

/-- A call that asks for a type answers the place of that type. -/
theorem call_spec {tys : List Ty} (holds : Holds t tys) {c : TyCall} {ty : Ty}
    (asks : asked (fun k => tys[k]?) c = some ty) :
    ∃ id t' tys', t.call c = some (id, t') ∧ Holds.Interned t tys ty id t' tys' := by
  obtain ⟨t₁, n, calls, holds₁, grows, typed, named⟩ := call_node holds c
  obtain ⟨id, t', tys', interned, after⟩ := holds₁.tyIntern named ((typed _).trans asks)
  exact ⟨id, t', tys', calls.trans interned,
    after.holds, after.grows, grows.trans after.extends_, after.place⟩

/-- A call that answers asks for a type. -/
theorem asks_of_call {tys : List Ty} (holds : Holds t tys) {c : TyCall} {answer : Nat × TyArena}
    (answers : t.call c = some answer) : ∃ ty, asked (fun k => tys[k]?) c = some ty := by
  obtain ⟨t₁, n, calls, holds₁, -, typed, named⟩ := call_node holds c
  obtain ⟨ty, reads⟩ := holds₁.reads_of_tyIntern named (calls.symm.trans answers)
  exact ⟨ty, (typed _).symm.trans reads⟩

theorem mapM_mono (more : ∀ k ty, types k = some ty → types' k = some ty) {xs : List Nat}
    {tys : List Ty} (here : xs.mapM types = some tys) : xs.mapM types' = some tys := by
  induction xs generalizing tys with
  | nil => exact here
  | cons x xs ih =>
      simp only [List.mapM_cons, Option.bind_eq_bind, Option.bind_eq_some_iff] at here ⊢
      obtain ⟨ty, one, rest, all, whole⟩ := here
      exact ⟨ty, more x ty one, rest, ih all, whole⟩

/-- A call asks for the same type when there are more types. -/
theorem asked_mono (more : ∀ k ty, types k = some ty → types' k = some ty) {c : TyCall} {ty : Ty}
    (here : asked types c = some ty) : asked types' c = some ty := by
  cases c with
  | list | option =>
      simp only [asked, Option.bind_eq_bind, Option.bind_eq_some_iff] at here ⊢
      obtain ⟨first, one, whole⟩ := here
      exact ⟨first, more _ _ one, whole⟩
  | map | result =>
      simp only [asked, Option.bind_eq_bind, Option.bind_eq_some_iff] at here ⊢
      obtain ⟨first, one, second, two, whole⟩ := here
      exact ⟨first, more _ _ one, second, more _ _ two, whole⟩
  | tuple =>
      simp only [asked, Option.bind_eq_bind, Option.bind_eq_some_iff] at here ⊢
      obtain ⟨elems, all, whole⟩ := here
      exact ⟨elems, mapM_mono more all, whole⟩
  | pledgeTy =>
      simp only [asked, Option.bind_eq_bind, Option.bind_eq_some_iff] at here ⊢
      obtain ⟨params, all, ret, one, whole⟩ := here
      exact ⟨params, mapM_mono more all, ret, more _ _ one, whole⟩
  | _ => exact here

/-- What a run of calls leaves: every id it returned is the place of the type its call asked
for. -/
structure Ran (t : TyArena) (tys : List Ty) (calls : List TyCall) (ids : List Nat) (t' : TyArena)
    (tys' : List Ty) : Prop where
  holds : Holds t' tys'
  grows : tys <+: tys'
  extends_ : Extends t t'
  places : List.Forall₂
    (fun c id => ∃ ty, asked (fun k => tys'[k]?) c = some ty ∧ tys'[id]? = some ty) calls ids

theorem run_spec {tys : List Ty} (holds : Holds t tys) {calls : List TyCall} {ids : List Nat}
    (runs : t.runCalls calls = some (ids, t')) : ∃ tys', Ran t tys calls ids t' tys' := by
  induction calls generalizing t tys ids with
  | nil =>
      cases runs
      exact ⟨tys, holds, List.prefix_rfl, .refl _, .nil⟩
  | cons c calls ih =>
      simp only [runCalls, Option.bind_eq_bind, Option.bind_eq_some_iff, Prod.exists] at runs
      obtain ⟨id, t₁, first, rest, t₂, behind, whole⟩ := runs
      cases whole
      obtain ⟨ty, asks⟩ := asks_of_call holds first
      obtain ⟨id', t₁', tys₁, answers, interned⟩ := call_spec holds asks
      rw [first] at answers
      cases answers
      obtain ⟨tys', ran⟩ := ih interned.holds behind
      refine ⟨tys', ran.holds, interned.grows.trans ran.grows,
        interned.extends_.trans ran.extends_, .cons ⟨ty, ?_, ?_⟩ ran.places⟩
      · exact asked_mono
          (fun _ _ => getElem?_of_prefix (interned.grows.trans ran.grows)) asks
      · exact getElem?_of_prefix ran.grows interned.place

/-- Every place is read as the type in it. -/
theorem tyUnder_eq {tys : List Ty} (holds : Holds t tys) {depth id : Nat} (deep : id < depth) :
    t.tyUnder depth id = tys[id]? := by
  induction depth generalizing id with
  | zero => exact absurd deep (Nat.not_lt_zero id)
  | succ depth ih =>
      rw [tyUnder]
      cases here : tys[id]? with
      | none =>
          have past : t.nodes.length ≤ id := holds.size ▸ List.getElem?_eq_none_iff.mp here
          simp [tyGet, List.getElem?_eq_none past]
      | some ty =>
          obtain ⟨n, node, typed⟩ := holds.reads id ty here
          rw [node]
          refine nodeTy_mono List.prefix_rfl List.prefix_rfl (fun k ty inside => ?_) typed
          rw [List.getElem?_take] at inside
          split at inside
          · rename_i earlier
            rw [ih (by omega), inside]
          · cases inside

/-- Under an id that is a place stands the type at that place. -/
theorem typeOf_eq {tys : List Ty} (holds : Holds t tys) (id : Nat) : t.typeOf id = tys[id]? :=
  tyUnder_eq holds (Nat.lt_succ_self id)

/-! ### Compatible ids -/

/-- The kids of two nodes are compared place by place. -/
theorem compatKids_eq {tysA tysB : Nat → Option Ty} {same : Nat → Nat → Option Bool}
    (each : ∀ {a b ta tb}, tysA a = some ta → tysB b = some tb → same a b = some (ta.agrees tb))
    {aOff bOff count i : Nat} {as bs : List Ty} (left : t.kidTys tysA aOff count i = some as)
    (right : t.kidTys tysB bOff count i = some bs) :
    t.compatKids same aOff bOff count i = some (Ty.agrees.agreesAll as bs) := by
  induction count generalizing i as bs with
  | zero =>
      cases left
      cases right
      rfl
  | succ count ih =>
      simp only [kidTys, Option.bind_eq_bind, Option.bind_eq_some_iff, Option.pure_def,
        Option.some.injEq] at left right
      obtain ⟨a, foundA, ta, typedA, as', behindA, rfl⟩ := left
      obtain ⟨b, foundB, tb, typedB, bs', behindB, rfl⟩ := right
      rw [compatKids, foundA, foundB]
      simp only [Option.bind_eq_bind, Option.bind_some, each typedA typedB, ih behindA behindB,
        Ty.agrees.agreesAll]
      cases ta.agrees tb <;> rfl

theorem kidTys_length {off count i : Nat} {tys : List Ty}
    (here : t.kidTys types off count i = some tys) : tys.length = count := by
  induction count generalizing i tys with
  | zero =>
      cases here
      rfl
  | succ count ih =>
      simp only [kidTys, Option.bind_eq_bind, Option.bind_eq_some_iff, Option.pure_def,
        Option.some.injEq] at here
      obtain ⟨_, _, _, _, rest, behind, rfl⟩ := here
      rw [List.length_cons, ih behind]

/-- `compat` on ids is agreement of the types under them, at any depth that is enough. -/
theorem compat_eq {tys : List Ty} (holds : Holds t tys) {a b depth : Nat} {ta tb : Ty}
    (first : tys[a]? = some ta) (second : tys[b]? = some tb) (deep : a < depth) :
    t.compat depth a b = some (ta.agrees tb) := by
  induction depth generalizing a b ta tb with
  | zero => exact absurd deep (Nat.not_lt_zero a)
  | succ depth ih =>
      rw [compat]
      by_cases same : a = b
      · subst same
        obtain rfl : ta = tb := Option.some.inj (first.symm.trans second)
        rw [if_pos rfl, Ty.agrees_refl]
        rfl
      have differ : ta ≠ tb := fun equal => same (holds.nodup first (equal ▸ second))
      obtain ⟨na, nodeA, typedA⟩ := holds.reads a ta first
      obtain ⟨nb, nodeB, typedB⟩ := holds.reads b tb second
      have kindA := nodeTy_kind typedA
      have kindB := nodeTy_kind typedB
      rw [if_neg same, nodeA, nodeB]
      simp only [Option.bind_eq_bind, Option.bind_some, ← kindA, ← kindB]
      by_cases recovers : ta.kind = .unknown ∨ tb.kind = .unknown
      · rw [if_pos recovers, Ty.agrees_of_unknown recovers]
        rfl
      rw [if_neg recovers]
      by_cases kinds : ta.kind = tb.kind
      swap
      · rw [if_pos kinds, Ty.agrees_of_kind_ne kinds recovers]
        rfl
      rw [if_neg (not_not.mpr kinds)]
      -- A child of the first node is an earlier place, so the depth is enough for it.
      have each {x y : Nat} {tx ty : Ty} (left : (tys.take a)[x]? = some tx)
          (right : (tys.take b)[y]? = some ty) :
          t.compat depth x y = some (tx.agrees ty) := by
        rw [List.getElem?_take] at left right
        split at left
        · split at right
          · exact ih left right (by omega)
          · cases right
        · cases left
      cases ta with
      | list elem =>
          cases tb with
          | list elem' =>
              simp only [nodeTy, ← kindA, ← kindB, Ty.kind, Option.bind_eq_bind,
                Option.bind_eq_some_iff, Option.pure_def, Option.some.injEq, Ty.list.injEq]
                at typedA typedB
              obtain ⟨_, innerA, rfl⟩ := typedA
              obtain ⟨_, innerB, rfl⟩ := typedB
              have inner := each innerA innerB
              exact inner
          | _ => cases kinds
      | option inner =>
          cases tb with
          | option inner' =>
              simp only [nodeTy, ← kindA, ← kindB, Ty.kind, Option.bind_eq_bind,
                Option.bind_eq_some_iff, Option.pure_def, Option.some.injEq, Ty.option.injEq]
                at typedA typedB
              obtain ⟨_, innerA, rfl⟩ := typedA
              obtain ⟨_, innerB, rfl⟩ := typedB
              have inner := each innerA innerB
              exact inner
          | _ => cases kinds
      | map key value =>
          cases tb with
          | map key' value' =>
              simp only [nodeTy, ← kindA, ← kindB, Ty.kind, Option.bind_eq_bind,
                Option.bind_eq_some_iff, Option.pure_def, Option.some.injEq, Ty.map.injEq]
                at typedA typedB
              obtain ⟨key, firstA, value, secondA, rfl, rfl⟩ := typedA
              obtain ⟨key', firstB, value', secondB, rfl, rfl⟩ := typedB
              simp only [Ty.kind, each firstA firstB, each secondA secondB, Option.bind_some,
                Ty.agrees]
              cases Ty.agrees key key' <;> rfl
          | _ => cases kinds
      | result ok err =>
          cases tb with
          | result ok' err' =>
              simp only [nodeTy, ← kindA, ← kindB, Ty.kind, Option.bind_eq_bind,
                Option.bind_eq_some_iff, Option.pure_def, Option.some.injEq, Ty.result.injEq]
                at typedA typedB
              obtain ⟨ok, firstA, err, secondA, rfl, rfl⟩ := typedA
              obtain ⟨ok', firstB, err', secondB, rfl, rfl⟩ := typedB
              simp only [Ty.kind, each firstA firstB, each secondA secondB, Option.bind_some,
                Ty.agrees]
              cases Ty.agrees ok ok' <;> rfl
          | _ => cases kinds
      | tuple elems =>
          cases tb with
          | tuple elems' =>
              simp only [nodeTy, ← kindA, ← kindB, Ty.kind, Option.bind_eq_bind,
                Option.bind_eq_some_iff, Option.pure_def, Option.some.injEq, Ty.tuple.injEq]
                at typedA typedB
              obtain ⟨elems, allA, rfl⟩ := typedA
              obtain ⟨elems', allB, rfl⟩ := typedB
              simp only [Ty.kind]
              by_cases sizes : na.len = nb.len
              · rw [if_neg (not_not.mpr sizes)]
                exact compatKids_eq each allA (sizes ▸ allB)
              · have unlike : elems.length ≠ elems'.length := by
                  rwa [kidTys_length allA, kidTys_length allB]
                rw [if_pos sizes]
                exact congrArg some (Ty.agreesAll_of_length_ne unlike).symm
          | _ => cases kinds
      | pledge params ret =>
          cases tb with
          | pledge params' ret' =>
              simp only [nodeTy, ← kindA, ← kindB, Ty.kind, Option.bind_eq_bind,
                Option.bind_eq_some_iff, Option.pure_def, Option.some.injEq, Ty.pledge.injEq]
                at typedA typedB
              obtain ⟨params, allA, ret, innerA, rfl, rfl⟩ := typedA
              obtain ⟨params', allB, ret', innerB, rfl, rfl⟩ := typedB
              simp only [Ty.kind]
              by_cases sizes : na.len = nb.len
              · rw [if_neg (not_not.mpr sizes)]
                simp only [compatKids_eq each allA (sizes ▸ allB), each innerA innerB,
                  Option.bind_some, Ty.agrees]
                cases Ty.agrees.agreesAll params params' <;> rfl
              · have unlike : params.length ≠ params'.length := by
                  rwa [kidTys_length allA, kidTys_length allB]
                rw [if_pos sizes, Ty.agrees, Ty.agreesAll_of_length_ne unlike]
                rfl
          | _ => cases kinds
      | named name =>
          cases tb with
          | named name' =>
              have names : name ≠ name' := fun equal => differ (congrArg Ty.named equal)
              exact congrArg some (decide_eq_false names).symm
          | _ => cases kinds
      | contract name =>
          cases tb with
          | contract name' =>
              have names : name ≠ name' := fun equal => differ (congrArg Ty.contract equal)
              exact congrArg some (decide_eq_false names).symm
          | _ => cases kinds
      | _ => cases tb <;> first | (cases kinds; done) | exact absurd rfl differ

/-! ### Hash-consing -/

theorem mapM_some {xs : List Nat} (each : ∀ x ∈ xs, ∃ ty, types x = some ty) :
    ∃ tys, xs.mapM types = some tys := by
  induction xs with
  | nil => exact ⟨[], rfl⟩
  | cons x xs ih =>
      obtain ⟨ty, one⟩ := each x List.mem_cons_self
      obtain ⟨tys, all⟩ := ih fun y inside => each y (List.mem_cons_of_mem x inside)
      exact ⟨ty :: tys, by simp [List.mapM_cons, one, all]⟩

/-- A call on ids with types asks for a type. -/
theorem asked_some {c : TyCall} (each : ∀ x ∈ c.args, ∃ ty, types x = some ty) :
    ∃ ty, asked types c = some ty := by
  cases c with
  | list | option =>
      simp only [TyCall.args, List.forall_mem_singleton] at each
      obtain ⟨ty, one⟩ := each
      exact ⟨_, by simp only [asked, one]; rfl⟩
  | map | result =>
      simp only [TyCall.args, List.forall_mem_cons] at each
      obtain ⟨⟨first, one⟩, ⟨second, two⟩, -⟩ := each
      exact ⟨_, by simp only [asked, one, two]; rfl⟩
  | tuple xs =>
      obtain ⟨tys, all⟩ := @mapM_some types xs each
      exact ⟨_, by simp only [asked, all]; rfl⟩
  | pledgeTy ps ret =>
      obtain ⟨tys, all⟩ := mapM_some fun x inside => each x (List.mem_append_left _ inside)
      obtain ⟨ty, one⟩ := each ret (List.mem_append_right _ List.mem_cons_self)
      exact ⟨_, by simp only [asked, all, one]; rfl⟩
  | _ => exact ⟨_, rfl⟩

/-- What constructor calls on a new arena, and the ids that they returned, come to. -/
structure HashConsed (calls : List TyCall) (ids : List Nat) (t : TyArena) : Prop where
  /-- Every id stands for the type its call asked for. -/
  stands : List.Forall₂ (fun c id => ∃ ty, asked t.typeOf c = some ty ∧ t.typeOf id = some ty)
    calls ids
  /-- Ids are equal just when their types are. -/
  equal : ∀ x ∈ ids, ∀ y ∈ ids, x = y ↔ t.typeOf x = t.typeOf y
  /-- Any further call on these ids answers. -/
  answers : ∀ c : TyCall, (∀ x ∈ c.args, x ∈ ids) → ∃ answer, t.call c = some answer
  /-- Further calls change no node and no type. -/
  keeps : ∀ more ids' t', t.runCalls more = some (ids', t') →
    ∀ x ∈ ids, t'.tyGet x = t.tyGet x ∧ t'.typeOf x = t.typeOf x
  /-- Compatibility is decided, the same from both sides, is met by every id with itself, and
  is equality on types without the recovery type. -/
  compatible : ∀ x ∈ ids, ∀ y ∈ ids, ∃ answer,
    (∀ depth, x < depth → y < depth →
      t.compat depth x y = some answer ∧ t.compat depth y x = some answer) ∧
    (x = y → answer = true) ∧
    ∀ tx ty, t.typeOf x = some tx → t.typeOf y = some ty → tx.known = true → ty.known = true →
      (answer = true ↔ x = y)

/-- Interning types is hash-consing. -/
theorem calls_hash_cons {calls : List TyCall} {ids : List Nat}
    (runs : tyArenaNew.runCalls calls = some (ids, t)) : HashConsed calls ids t := by
  obtain ⟨tys, ran⟩ := run_spec Holds.new runs
  have holds := ran.holds
  have typed : t.typeOf = fun k => tys[k]? := funext (typeOf_eq holds)
  have standing (x : Nat) (inside : x ∈ ids) : ∃ ty, tys[x]? = some ty := by
    obtain ⟨sizes, each⟩ := List.forall₂_iff_get.mp ran.places
    obtain ⟨i, rfl⟩ := List.mem_iff_get.mp inside
    obtain ⟨ty, -, place⟩ := each i (by rw [sizes]; exact i.isLt) i.isLt
    exact ⟨ty, place⟩
  refine ⟨?_, ?_, ?_, ?_, ?_⟩
  · rw [typed]
    exact ran.places
  · intro x first y second
    rw [typed]
    refine ⟨fun same => by rw [same], fun same => ?_⟩
    obtain ⟨ty, place⟩ := standing x first
    have place' : tys[y]? = some ty := same.symm.trans place
    exact holds.nodup place place'
  · intro c args
    obtain ⟨ty, asks⟩ := asked_some fun x inside => standing x (args x inside)
    obtain ⟨id, t', -, answers, -⟩ := call_spec holds asks
    exact ⟨(id, t'), answers⟩
  · intro more ids' t' further x inside
    obtain ⟨tys', later⟩ := run_spec holds further
    obtain ⟨ty, place⟩ := standing x inside
    obtain ⟨n, node, -⟩ := holds.reads x ty place
    have node' := getElem?_of_prefix later.extends_.nodes node
    have place' := getElem?_of_prefix later.grows place
    exact ⟨node'.trans node.symm,
      (typeOf_eq later.holds x).trans (place'.trans (place.symm.trans (typeOf_eq holds x).symm))⟩
  · intro x first y second
    obtain ⟨tx, placeX⟩ := standing x first
    obtain ⟨ty, placeY⟩ := standing y second
    refine ⟨tx.agrees ty,
      fun depth deepX deepY => ⟨compat_eq holds placeX placeY deepX, ?_⟩, ?_, ?_⟩
    · rw [Ty.agrees_comm]
      exact compat_eq holds placeY placeX deepY
    · rintro rfl
      obtain rfl : tx = ty := Option.some.inj (placeX.symm.trans placeY)
      exact Ty.agrees_refl tx
    · intro tx' ty' typeX typeY knownX knownY
      rw [typed] at typeX typeY
      obtain rfl : tx = tx' := Option.some.inj (placeX.symm.trans typeX)
      obtain rfl : ty = ty' := Option.some.inj (placeY.symm.trans typeY)
      constructor
      · intro alike
        obtain rfl := Ty.eq_of_agrees knownX knownY alike
        exact holds.nodup placeX placeY
      · rintro rfl
        obtain rfl : tx = ty := Option.some.inj (placeX.symm.trans placeY)
        exact Ty.agrees_refl tx

theorem nested_types_hash_cons :
    ∃ t, HashConsed
      [.int, .list 0, .named ⟨ascii "I", rfl⟩, .list 2, .tuple [1, 3], .pledgeTy [4] 0, .list 0]
      [0, 1, 2, 3, 4, 5, 1] t :=
  ⟨_, calls_hash_cons rfl⟩

end TyArena

end Geas.Compiler
