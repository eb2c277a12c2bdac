import Geas.Compiler.Shape

/-!
# Match expressions

What the checker asks of the patterns of a match and which arm the emitted tests
select.  Coverage is counted by constructor: an arm counts for its constructor when
every pattern directly under it is a wildcard or a name.  The emitted code however
reads a bare name by the type it stands at, and tests for a variant when the name is a
variant of that type's sum.  So an arm may count as covering a constructor and still
refuse some of its values.
-/

namespace Geas.Compiler.Sigs

open Geas.Abi
open Geas.Runtime (ascii)

/-! ### Patterns -/

/-- A literal in a pattern: a boolean, or a value with the type it was checked at. -/
inductive Literal where
  | bool (b : Bool)
  | other (ty : Ty) (value : GeasValue)

/-- The type of a literal. -/
def Literal.ty : Literal → Ty
  | bool _ => .bool
  | other ty _ => ty

/-- The value of a literal. -/
def Literal.value : Literal → GeasValue
  | bool b => .bool 0 (if b then 1 else 0)
  | other _ value => value

/-- A pattern. -/
inductive Pat where
  | wildcard
  | bind (name : Ident)
  | lit (literal : Literal)
  | some (inner : Pat)
  | none
  | ok (inner : Pat)
  | err (inner : Pat)
  | variant (name : Ident) (subs : List Pat)

/-- A fault in the patterns of a match. -/
inductive MatchFault where
  /-- "variant '_' carries a payload; match it as '_(...)'" -/
  | carriesPayload (name : Ident)
  /-- "pattern literal has type _ but the scrutinee is _" -/
  | literalType (literal scrutinee : Ty)
  /-- "'Some' pattern needs an Option scrutinee, got '_'" -/
  | someNeedsOption (got : Ty)
  /-- "'None' pattern needs an Option scrutinee, got '_'" -/
  | noneNeedsOption (got : Ty)
  /-- "'Ok' pattern needs a Result scrutinee, got '_'" -/
  | okNeedsResult (got : Ty)
  /-- "'Err' pattern needs a Result scrutinee, got '_'" -/
  | errNeedsResult (got : Ty)
  /-- "variant pattern '_' needs a sum scrutinee, got '_'" -/
  | needsSum (name : Ident) (got : Ty)
  /-- "'_' is not a variant of '_'" -/
  | notVariant (name : Ident) (got : Ty)
  /-- "variant '_' carries _ fields, got _" -/
  | fieldCount (name : Ident) (carries got : Nat)
  /-- "unreachable match arm after a catch all pattern" -/
  | unreachable
  /-- "match on Bool is missing 'true'" -/
  | missingTrue
  /-- "match on Bool is missing 'false'" -/
  | missingFalse
  /-- "match is missing 'Some(_)'" -/
  | missingSome
  /-- "match is missing 'None'" -/
  | missingNone
  /-- "match is missing 'Ok(_)'" -/
  | missingOk
  /-- "match is missing 'Err(_)'" -/
  | missingErr
  /-- "match is missing variant '_'" -/
  | missingVariant (name : Ident)
  /-- "match over '_' needs a '_' or binding arm" -/
  | needsCatchAll (scrutinee : Ty)

/-! ### Sums and variants -/

namespace Program

/-- `sum_of`: the variants of the sum behind a named type. -/
def sumOf (p : Program) : Ty → Option (List VariantNode)
  | .named name =>
      match p.layout name with
      | some (.sum variants) => some variants
      | _ => none
  | _ => none

/-- The variants of the program, each with its sum. -/
def variants (p : Program) : List (Ident × Ident × VariantNode) :=
  p.decls.flatMap fun
    | .sum owner variants => variants.map fun v => (v.name, owner, v)
    | _ => []

/-- `sig_variant`: the sum and the declaration of a variant. -/
def sigVariant (p : Program) (name : Ident) : Option (Ident × VariantNode) :=
  p.variants.lookup name

/-- `ty_name_of`. -/
def tyNameOf : Ty → Option Ident
  | .named name => some name
  | .contract name => some name
  | _ => none

/-- `variant_of`: whether a name is a variant of the sum a type names. -/
def variantOf (p : Program) (st : Ty) (name : Ident) : Bool :=
  match p.sigVariant name with
  | some (owner, _) => tyNameOf st == some owner
  | none => false

/-- `cg_variant`: the position of a variant in its sum, the sum and its fields. -/
def cgVariant (p : Program) (name : Ident) : Option (Nat × Ident × List FieldSig) :=
  match p.sigVariant name with
  | some (owner, v) =>
      match p.sumOf (.named owner) with
      | some variants =>
          (variants.findIdx? fun v' => v'.name = name).map fun idx => (idx, owner, v.fields)
      | none => none
  | none => none

end Program

/-! ### The checker -/

/-- `compat`: equal types, with the unknown type standing anywhere. -/
def compat : Ty → Ty → Bool
  | .unknown, _ => true
  | _, .unknown => true
  | .list a, .list b => compat a b
  | .option a, .option b => compat a b
  | .map a b, .map a' b' => compat a a' && compat b b'
  | .result a b, .result a' b' => compat a a' && compat b b'
  | .tuple as, .tuple bs => compats as bs
  | .pledge as a, .pledge bs b => compats as bs && compat a b
  | .named a, .named b => a == b
  | .contract a, .contract b => a == b
  | a, b => a.code == b.code
where
  /-- Types one by one, equally many. -/
  compats : List Ty → List Ty → Bool
    | [], [] => true
    | a :: as, b :: bs => compat a b && compats as bs
    | _, _ => false

/-- `bind_pat`: the faults of a pattern against the type it matches. -/
def bindPat (p : Program) : Pat → Ty → List MatchFault
  | .wildcard, _ => []
  | .bind name, vt =>
      if (p.sumOf vt).isSome && p.variantOf vt name then
        match p.sigVariant name with
        | some (_, v) => if v.fields.length > 0 then [.carriesPayload name] else []
        | none => []
      else []
  | .lit literal, vt => if compat vt literal.ty then [] else [.literalType literal.ty vt]
  | .some inner, vt =>
      match vt with
      | .option ty => bindPat p inner ty
      | .unknown => bindPat p inner .unknown
      | _ => .someNeedsOption vt :: bindPat p inner .unknown
  | .none, vt =>
      match vt with
      | .option _ => []
      | .unknown => []
      | _ => [.noneNeedsOption vt]
  | .ok inner, vt =>
      match vt with
      | .result ty _ => bindPat p inner ty
      | .unknown => bindPat p inner .unknown
      | _ => .okNeedsResult vt :: bindPat p inner .unknown
  | .err inner, vt =>
      match vt with
      | .result _ ty => bindPat p inner ty
      | .unknown => bindPat p inner .unknown
      | _ => .errNeedsResult vt :: bindPat p inner .unknown
  | .variant name subs, vt =>
      match p.sumOf vt with
      | none =>
          (match vt with
          | .unknown => []
          | _ => [.needsSum name vt]) ++ bindPats subs []
      | some _ =>
          if p.variantOf vt name then
            match p.sigVariant name with
            | some (_, v) =>
                (if subs.length ≠ v.fields.length then
                  [.fieldCount name v.fields.length subs.length] else []) ++
                bindPats subs (v.fields.map FieldSig.ty)
            | none => []
          else .notVariant name vt :: bindPats subs []
where
  /-- The faults of patterns against types, unknown where there is none. -/
  bindPats : List Pat → List Ty → List MatchFault
    | [], _ => []
    | pat :: pats, tys => bindPat p pat (tys.headD .unknown) ++ bindPats pats tys.tail

/-- What the arms of a match cover. -/
structure Cover where
  catchAll : Bool
  sawTrue : Bool
  sawFalse : Bool
  sawSome : Bool
  sawNone : Bool
  sawOk : Bool
  sawErr : Bool
  covered : List Ident

/-- Nothing is covered. -/
def Cover.empty : Cover := ⟨false, false, false, false, false, false, false, []⟩

/-- A wildcard or a name. -/
def Pat.isPlain : Pat → Bool
  | wildcard | bind _ => true
  | _ => false

/-- `subs_irrefutable`: the patterns directly under a constructor are wildcards and
names. -/
def Pat.subsIrrefutable : Pat → Bool
  | some inner => inner.isPlain
  | ok inner => inner.isPlain
  | err inner => inner.isPlain
  | variant _ subs => subs.all isPlain
  | _ => true

/-- `cover_pat`: record what an arm covers. -/
def coverPat (p : Program) (st : Ty) (cv : Cover) (pat : Pat) : Cover :=
  match pat with
  | .wildcard => { cv with catchAll := true }
  | .bind name =>
      if (p.sumOf st).isSome && p.variantOf st name then
        match p.sigVariant name with
        | some (_, v) =>
            if v.fields.length = 0 then { cv with covered := name :: cv.covered } else cv
        | none => cv
      else { cv with catchAll := true }
  | .lit (.bool true) => { cv with sawTrue := true }
  | .lit (.bool false) => { cv with sawFalse := true }
  | .lit (.other _ _) => cv
  | .some _ => if pat.subsIrrefutable then { cv with sawSome := true } else cv
  | .none => { cv with sawNone := true }
  | .ok _ => if pat.subsIrrefutable then { cv with sawOk := true } else cv
  | .err _ => if pat.subsIrrefutable then { cv with sawErr := true } else cv
  | .variant name _ =>
      if pat.subsIrrefutable && p.variantOf st name then
        { cv with covered := name :: cv.covered }
      else cv

/-- `check_exhaustive`. -/
def checkExhaustive (p : Program) (st : Ty) (cv : Cover) : List MatchFault :=
  if cv.catchAll then []
  else
    match st with
    | .unknown => []
    | .bool =>
        (if cv.sawTrue then [] else [.missingTrue]) ++
          if cv.sawFalse then [] else [.missingFalse]
    | .option _ =>
        (if cv.sawSome then [] else [.missingSome]) ++
          if cv.sawNone then [] else [.missingNone]
    | .result _ _ =>
        (if cv.sawOk then [] else [.missingOk]) ++ if cv.sawErr then [] else [.missingErr]
    | _ =>
        match p.sumOf st with
        | some variants =>
            variants.flatMap fun v =>
              if v.name ∈ cv.covered then [] else [.missingVariant v.name]
        | none => [.needsCatchAll st]

/-- The faults of the arms of a match, and what they cover in the end. -/
def checkArms (p : Program) (st : Ty) : Cover → List Pat → List MatchFault × Cover
  | cv, [] => ([], cv)
  | cv, pat :: pats =>
      let rest := checkArms p st (coverPat p st cv pat) pats
      ((if cv.catchAll then [.unreachable] else []) ++ bindPat p pat st ++ rest.1, rest.2)

/-- `check_match`: the faults of the patterns of a match over a type. -/
def checkMatch (p : Program) (st : Ty) (pats : List Pat) : List MatchFault :=
  let checked := checkArms p st Cover.empty pats
  checked.1 ++ checkExhaustive p st checked.2

/-! ### The emitted tests -/

/-- `bind_is_variant`: whether a bare name tests instead of binding. -/
def bindIsVariant (p : Program) (name : Ident) (sty : Ty) : Bool :=
  (p.sumOf sty).isSome &&
    match p.cgVariant name with
    | some (_, owner, _) => Program.tyNameOf sty == some owner
    | none => false

/-- `pat_irrefutable`. -/
def patIrrefutable (p : Program) : Pat → Ty → Bool
  | .wildcard, _ => true
  | .bind name, sty => !bindIsVariant p name sty
  | _, _ => false

/-- The value behind the box of an option or a result. -/
def boxOf : GeasValue → Option GeasValue
  | .option _ box => box
  | .result _ box => box
  | _ => none

/-- The payload of a variant. -/
def dataOf : GeasValue → List GeasValue
  | .sum _ (some data) => data
  | _ => []

/-- `gen_pat_test`: whether the emitted checks of a pattern pass. -/
def genPatTest (p : Program) : Pat → Ty → GeasValue → Bool
  | .wildcard, _, _ => true
  | .bind name, sty, sval =>
      if bindIsVariant p name sty then
        match p.cgVariant name with
        | some (idx, _, _) => sval.tag.toNat == idx
        | none => false
      else true
  | .lit literal, _, sval => geasValueEq sval literal.value
  | .none, _, sval => sval.tag.toNat == 0
  | .some inner, sty, sval =>
      sval.tag.toNat == 1 &&
        match boxOf sval with
        | some pv => genPatTest p inner (match sty with | .option ty => ty | _ => .unknown) pv
        | none => false
  | .ok inner, sty, sval =>
      sval.tag.toNat == 0 &&
        match boxOf sval with
        | some pv => genPatTest p inner (match sty with | .result ty _ => ty | _ => .unknown) pv
        | none => false
  | .err inner, sty, sval =>
      sval.tag.toNat == 1 &&
        match boxOf sval with
        | some pv => genPatTest p inner (match sty with | .result _ ty => ty | _ => .unknown) pv
        | none => false
  | .variant name subs, _, sval =>
      match p.cgVariant name with
      | some (idx, _, fields) =>
          sval.tag.toNat == idx && genPatTests subs (fields.map FieldSig.ty) (dataOf sval)
      | none => false
where
  /-- The checks of patterns against the elements of a payload. -/
  genPatTests : List Pat → List Ty → List GeasValue → Bool
    | [], _, _ => true
    | pat :: pats, tys, value :: values =>
        genPatTest p pat (tys.headD .unknown) value && genPatTests pats tys.tail values
    | _ :: _, _, [] => false

/-- `gen_arms`: the arm the emitted code selects for a value; `none` is the zeroed
result a match starts from. -/
def genArms (p : Program) (st : Ty) (sval : GeasValue) : List Pat → Option Pat
  | [] => none
  | pat :: pats =>
      if patIrrefutable p pat st then some pat
      else if genPatTest p pat st sval then some pat
      else genArms p st sval pats

/-! ### Values of a type -/

mutual

/-- A value of a type.  Anything may stand where the type is unknown. -/
inductive HasType (p : Program) : Ty → GeasValue → Prop where
  | unit (tag : UInt32) : HasType p .unit (.unit tag)
  | int (tag : UInt32) (i : Int64) : HasType p .int (.int tag i)
  | uint (tag : UInt32) (u : UInt64) : HasType p .uint (.uint tag u)
  | float (tag : UInt32) (bits : UInt64) : HasType p .float (.float tag bits)
  | bool (tag : UInt32) (b : Bool) : HasType p .bool (.bool tag (if b then 1 else 0))
  | byte (tag : UInt32) (b : UInt8) : HasType p .byte (.byte tag b)
  | char (tag : UInt32) (ch : UInt32) : HasType p .char (.char tag ch)
  | str (tag : UInt32) (bytes : List UInt8) : HasType p .str (.string tag (some bytes))
  | list {elem : Ty} (tag elemTy : UInt32) {data : List GeasValue}
      (typed : HasTypes p (List.replicate data.length elem) data) :
      HasType p (.list elem) (.list tag elemTy (some data))
  | map {key value : Ty} (tag elemTy : UInt32) (n : Nat) {data : List GeasValue}
      (typed : HasTypes p (List.replicate n [key, value]).flatten data) :
      HasType p (.map key value) (.map tag elemTy (some data))
  | tuple {elems : List Ty} (tag : UInt32) {data : List GeasValue}
      (typed : HasTypes p elems data) : HasType p (.tuple elems) (.tuple tag (some data))
  | none {inner : Ty} : HasType p (.option inner) (.option 0 none)
  | some {inner : Ty} {value : GeasValue} (typed : HasType p inner value) :
      HasType p (.option inner) (.option 1 (some value))
  | ok {ty err : Ty} {value : GeasValue} (typed : HasType p ty value) :
      HasType p (.result ty err) (.result 0 (some value))
  | err {ok ty : Ty} {value : GeasValue} (typed : HasType p ty value) :
      HasType p (.result ok ty) (.result 1 (some value))
  | record {name : Ident} (tag : UInt32) {fields : List FieldSig} {data : List GeasValue}
      (declared : p.layout name = some (.record fields))
      (typed : HasTypes p (fields.map FieldSig.ty) data) :
      HasType p (.named name) (.record tag (some data))
  | sum {name : Ident} {tag : UInt32} {variants : List VariantNode} {v : VariantNode}
      {data : List GeasValue} (declared : p.layout name = some (.sum variants))
      (isVariant : variants[tag.toNat]? = some v)
      (typed : HasTypes p (v.fields.map FieldSig.ty) data) :
      HasType p (.named name) (.sum tag (some data))
  | pledge (params : List Ty) (ret : Ty) (tag : UInt32) :
      HasType p (.pledge params ret) (.pledgeRef tag)
  | contract (name : Ident) (tag : UInt32) (handle : Nat) :
      HasType p (.contract name) (.inst tag handle)
  | unknown (value : GeasValue) : HasType p .unknown value

/-- Values of types, one by one. -/
inductive HasTypes (p : Program) : List Ty → List GeasValue → Prop where
  | nil : HasTypes p [] []
  | cons {ty : Ty} {tys : List Ty} {value : GeasValue} {values : List GeasValue}
      (first : HasType p ty value) (rest : HasTypes p tys values) :
      HasTypes p (ty :: tys) (value :: values)

end

theorem HasTypes.length_eq {p : Program} {tys : List Ty} {values : List GeasValue}
    (typed : HasTypes p tys values) : tys.length = values.length := by
  induction tys generalizing values with
  | nil =>
      cases typed
      rfl
  | cons ty tys ih =>
      cases typed with
      | cons _ rest => simp [ih rest]

/-- The payloads directly under the constructor of a value, with their types. -/
def payloads (p : Program) : Ty → GeasValue → List (Ty × GeasValue)
  | .option inner, .option _ (some value) => [(inner, value)]
  | .result ok err, .result tag (some value) => [(if tag = 0 then ok else err, value)]
  | .named name, .sum tag (some data) =>
      match p.sumOf (.named name) with
      | some variants =>
          match variants[tag.toNat]? with
          | some v => (v.fields.map FieldSig.ty).zip data
          | none => []
      | none => []
  | _, _ => []

/-! ### Variants of a sum -/

section Variants

variable {p : Program}

theorem variants_keys_sublist (p : Program) :
    (p.variants.map Prod.fst).Sublist p.globals := by
  refine List.Sublist.trans ?_ (List.sublist_append_left _ _)
  unfold Program.variants
  induction p.decls with
  | nil => exact List.Sublist.refl _
  | cons decl decls ih =>
      rw [List.flatMap_cons, List.flatMap_cons, List.map_append]
      refine List.Sublist.append ?_ ih
      cases decl with
      | sum owner variants =>
          rw [List.map_map]
          exact List.sublist_cons_self _ _
      | _ => exact List.nil_sublist _

theorem sum_declared {name : Ident} {variants : List VariantNode}
    (known : p.layout name = some (.sum variants)) : Decl.sum name variants ∈ p.decls := by
  obtain ⟨before, after, split, -⟩ := List.lookup_eq_some_iff.mp known
  have inside : (name, Layout.sum variants) ∈ p.layouts := by simp [split]
  rcases List.mem_append.mp inside with inside | row
  · obtain ⟨decl, member, found⟩ := List.mem_filterMap.mp inside
    cases decl with
    | sum owner variants' =>
        cases found
        exact member
    | _ => cases found
  · obtain ⟨c, -, row⟩ := List.mem_flatMap.mp row
    obtain ⟨schema, -, same⟩ := List.mem_map.mp row
    cases same

/-- A variant of a declared sum is found under its name, in its place. -/
theorem variant_known (resolves : p.Resolves) {name : Ident} {variants : List VariantNode}
    (known : p.layout name = some (.sum variants)) {k : Nat} {v : VariantNode}
    (isVariant : variants[k]? = some v) :
    p.sigVariant v.name = some (name, v) ∧
      p.cgVariant v.name = some (k, name, v.fields) := by
  have nodup := (variants_keys_sublist p).nodup (duplicates_eq_nil_iff.mp resolves.globals)
  have declared := sum_declared known
  have sig : p.sigVariant v.name = some (name, v) := by
    refine lookup_of_mem nodup (List.mem_flatMap.mpr ⟨_, declared, ?_⟩)
    exact List.mem_map_of_mem (List.mem_of_getElem? isVariant)
  have own : (variants.map VariantNode.name).Nodup := by
    have whole := duplicates_eq_nil_iff.mp resolves.globals
    have global := (List.nodup_flatMap.mp (List.nodup_append'.mp whole).1).1 _ declared
    exact (List.nodup_cons.mp global).2
  refine ⟨sig, ?_⟩
  have position : (variants.findIdx? fun v' => v'.name = v.name) = some k := by
    exact findIdx?_of_nodup own isVariant
  have sum : p.sumOf (.named name) = some variants := by simp [Program.sumOf, known]
  simp [Program.cgVariant, sig, sum, position]

/-- The variants of a sum are told apart by their names. -/
theorem variant_eq_of_name (resolves : p.Resolves) {name : Ident} {variants : List VariantNode}
    (known : p.layout name = some (.sum variants)) {k k' : Nat} {v v' : VariantNode}
    (here : variants[k]? = some v) (here' : variants[k']? = some v') (same : v'.name = v.name) :
    v' = v := by
  have sig := (variant_known resolves known here).1
  have sig' := (variant_known resolves known here').1
  rw [same, sig] at sig'
  cases sig'
  rfl

theorem sumOf_eq_some {st : Ty} {variants : List VariantNode}
    (sum : p.sumOf st = some variants) :
    ∃ name, st = .named name ∧ p.layout name = some (.sum variants) := by
  cases st with
  | named name =>
      refine ⟨name, rfl, ?_⟩
      rw [Program.sumOf] at sum
      split at sum
      · rename_i variants' known
        cases sum
        exact known
      · cases sum
  | _ => cases sum

/-- A name that is a variant of a declared sum stands in its list of variants. -/
theorem variantOf_named (resolves : p.Resolves) {name x : Ident} {variants : List VariantNode}
    (known : p.layout name = some (.sum variants))
    (isVariant : p.variantOf (.named name) x = true) :
    ∃ (k : Nat) (v : VariantNode), variants[k]? = some v ∧ v.name = x := by
  unfold Program.variantOf at isVariant
  split at isVariant
  · rename_i owner v found
    simp only [Program.tyNameOf, beq_iff_eq, Option.some.injEq] at isVariant
    subst isVariant
    obtain ⟨before, after, entries, -⟩ := List.lookup_eq_some_iff.mp found
    have inside : (x, name, v) ∈ p.variants := by simp [entries]
    obtain ⟨decl, declared, listed⟩ := List.mem_flatMap.mp inside
    cases decl with
    | sum owner variants' =>
        obtain ⟨v', member, same⟩ := List.mem_map.mp listed
        cases same
        have entry : (name, Layout.sum variants') ∈ p.layouts :=
          List.mem_append_left _ (List.mem_filterMap.mpr ⟨_, declared, rfl⟩)
        rw [layout_of_mem resolves entry] at known
        cases known
        obtain ⟨k, here⟩ := List.mem_iff_getElem?.mp member
        exact ⟨k, v, here, rfl⟩
    | _ => cases listed
  · cases isVariant

end Variants

/-! ### What the count means -/

/-- An arm that catches everything in the eyes of the checker. -/
def CatchesAll (p : Program) (st : Ty) (pat : Pat) : Prop :=
  pat = .wildcard ∨
    ∃ name, pat = .bind name ∧ ((p.sumOf st).isSome && p.variantOf st name) = false

/-- Arms of a match stand behind everything that is covered. -/
structure Counted (p : Program) (st : Ty) (arm : Pat → Prop) (cv : Cover) : Prop where
  catchAll : cv.catchAll = true → ∃ pat, arm pat ∧ CatchesAll p st pat
  sawTrue : cv.sawTrue = true → arm (.lit (.bool true))
  sawFalse : cv.sawFalse = true → arm (.lit (.bool false))
  sawSome : cv.sawSome = true → ∃ inner, arm (.some inner) ∧ inner.isPlain = true
  sawNone : cv.sawNone = true → arm .none
  sawOk : cv.sawOk = true → ∃ inner, arm (.ok inner) ∧ inner.isPlain = true
  sawErr : cv.sawErr = true → ∃ inner, arm (.err inner) ∧ inner.isPlain = true
  covered : ∀ name ∈ cv.covered, arm (.bind name) ∨
    ∃ subs, arm (.variant name subs) ∧ subs.all Pat.isPlain = true

section Count

variable {p : Program} {st : Ty} {arm : Pat → Prop} {cv : Cover}

theorem counted_empty : Counted p st arm Cover.empty where
  catchAll saw := by cases saw
  sawTrue saw := by cases saw
  sawFalse saw := by cases saw
  sawSome saw := by cases saw
  sawNone saw := by cases saw
  sawOk saw := by cases saw
  sawErr saw := by cases saw
  covered _ inside := by cases inside

theorem Counted.cover (counted : Counted p st arm cv) {name : Ident}
    (behind : arm (.bind name) ∨ ∃ subs, arm (.variant name subs) ∧ subs.all Pat.isPlain = true) :
    Counted p st arm { cv with covered := name :: cv.covered } :=
  { counted with
    covered := by
      intro other inside
      rcases List.mem_cons.mp inside with rfl | inside
      · exact behind
      · exact counted.covered other inside }

/-- An arm keeps the count honest. -/
theorem counted_coverPat (counted : Counted p st arm cv) {pat : Pat} (isArm : arm pat) :
    Counted p st arm (coverPat p st cv pat) := by
  cases pat with
  | wildcard => exact { counted with catchAll := fun _ => ⟨_, isArm, Or.inl rfl⟩ }
  | bind name =>
      rw [coverPat]
      split
      · split
        · split
          · exact counted.cover (Or.inl isArm)
          · exact counted
        · exact counted
      · rename_i binds
        exact { counted with
          catchAll := fun _ => ⟨_, isArm, Or.inr ⟨name, rfl, by simpa using binds⟩⟩ }
  | lit literal =>
      cases literal with
      | bool b =>
          cases b with
          | false => exact { counted with sawFalse := fun _ => isArm }
          | true => exact { counted with sawTrue := fun _ => isArm }
      | other ty value => exact counted
  | some inner =>
      rw [coverPat]
      split
      · rename_i plain
        exact { counted with sawSome := fun _ => ⟨inner, isArm, plain⟩ }
      · exact counted
  | none => exact { counted with sawNone := fun _ => isArm }
  | ok inner =>
      rw [coverPat]
      split
      · rename_i plain
        exact { counted with sawOk := fun _ => ⟨inner, isArm, plain⟩ }
      · exact counted
  | err inner =>
      rw [coverPat]
      split
      · rename_i plain
        exact { counted with sawErr := fun _ => ⟨inner, isArm, plain⟩ }
      · exact counted
  | variant name subs =>
      rw [coverPat]
      split
      · rename_i counts
        rw [Bool.and_eq_true] at counts
        exact counted.cover (Or.inr ⟨subs, isArm, counts.1⟩)
      · exact counted

theorem counted_checkArms (counted : Counted p st arm cv) {pats : List Pat}
    (arms : ∀ pat ∈ pats, arm pat) : Counted p st arm (checkArms p st cv pats).2 := by
  induction pats generalizing cv with
  | nil => exact counted
  | cons pat pats ih =>
      exact ih (counted_coverPat counted (arms pat List.mem_cons_self))
        fun pat' inside => arms pat' (List.mem_cons_of_mem _ inside)

theorem bindPat_of_checkArms {pats : List Pat} (clean : (checkArms p st cv pats).1 = []) :
    ∀ pat ∈ pats, bindPat p pat st = [] := by
  induction pats generalizing cv with
  | nil => simp
  | cons pat pats ih =>
      simp only [checkArms, List.append_eq_nil_iff] at clean
      intro pat' inside
      rcases List.mem_cons.mp inside with rfl | inside
      · exact clean.1.2
      · exact ih clean.2 pat' inside

end Count

/-! ### Selecting an arm -/

/-- The patterns directly under a constructor. -/
def Pat.directSubs : Pat → List Pat
  | some inner => [inner]
  | ok inner => [inner]
  | err inner => [inner]
  | variant _ subs => subs
  | _ => []

/-- The types the patterns directly under a constructor stand at. -/
def subTypes (p : Program) : Ty → Pat → List Ty
  | .option inner, .some _ => [inner]
  | .result ok _, .ok _ => [ok]
  | .result _ err, .err _ => [err]
  | .named _, .variant name _ =>
      match p.sigVariant name with
      | some (_, v) => v.fields.map FieldSig.ty
      | none => []
  | _, _ => []

/-- The check of a pattern's constructor. -/
def headTest (p : Program) : Pat → GeasValue → Bool
  | .some _, sval => sval.tag.toNat == 1
  | .ok _, sval => sval.tag.toNat == 0
  | .err _, sval => sval.tag.toNat == 1
  | .variant name _, sval =>
      match p.cgVariant name with
      | some (idx, _, _) => sval.tag.toNat == idx
      | none => false
  | _, _ => false

/-- Wherever a name directly under the constructor of a value tests for a variant, the
payload is that variant. -/
def SubsPass (p : Program) (st : Ty) (sval : GeasValue) (pat : Pat) : Prop :=
  headTest p pat sval = true →
    ∀ x ty value, (Pat.bind x, ty, value) ∈ pat.directSubs.zip (payloads p st sval) →
      bindIsVariant p x ty = true → genPatTest p (.bind x) ty value = true

section Select

variable {p : Program} {st : Ty} {sval : GeasValue}

theorem genArms_ne_none {pats : List Pat} {pat : Pat} (inside : pat ∈ pats)
    (passes : patIrrefutable p pat st = true ∨ genPatTest p pat st sval = true) :
    genArms p st sval pats ≠ none := by
  induction pats with
  | nil => cases inside
  | cons first pats ih =>
      rw [genArms]
      split
      · nofun
      · rename_i refutable
        split
        · nofun
        · rename_i fails
          rcases List.mem_cons.mp inside with rfl | inside
          · exact absurd passes (by simp [refutable, fails])
          · exact ih inside

theorem genArms_eq_none {pats : List Pat}
    (fails : ∀ pat ∈ pats, patIrrefutable p pat st = false ∧ genPatTest p pat st sval = false) :
    genArms p st sval pats = none := by
  induction pats with
  | nil => rfl
  | cons pat pats ih =>
      have here := fails pat List.mem_cons_self
      rw [genArms, if_neg (by simp [here.1]), if_neg (by simp [here.2])]
      exact ih fun pat' inside => fails pat' (List.mem_cons_of_mem _ inside)

/-- A wildcard or a name passes, unless the name tests for another variant. -/
theorem plain_passes {pat : Pat} {ty : Ty} {value : GeasValue} (plain : pat.isPlain = true)
    (named : ∀ x, pat = .bind x → bindIsVariant p x ty = true →
      genPatTest p (.bind x) ty value = true) : genPatTest p pat ty value = true := by
  cases pat with
  | wildcard => rfl
  | bind x =>
      cases tests : bindIsVariant p x ty with
      | true => exact named x rfl tests
      | false => simp [genPatTest, tests]
  | _ => cases plain

/-- An arm with one plain pattern under its constructor selects a value of that
constructor. -/
theorem boxed_arm {pats : List Pat} {pat sub : Pat} {ty : Ty} {value : GeasValue}
    (inside : pat ∈ pats) (plain : sub.isPlain = true) (subs : SubsPass p st sval pat)
    (head : headTest p pat sval = true) (under : pat.directSubs = [sub])
    (holds : payloads p st sval = [(ty, value)])
    (test : genPatTest p sub ty value = true → genPatTest p pat st sval = true) :
    genArms p st sval pats ≠ none := by
  apply genArms_ne_none inside
  right
  apply test
  apply plain_passes plain
  rintro x rfl tests
  apply subs head x ty value ?_ tests
  rw [under, holds]
  exact List.mem_singleton.mpr rfl

/-- The patterns under a variant pass on its payload when each of them does. -/
theorem genPatTests_pass {subs : List Pat} {tys : List Ty} {values : List GeasValue}
    (count : subs.length = tys.length) (sizes : tys.length = values.length)
    (plain : subs.all Pat.isPlain = true)
    (named : ∀ x ty value, (Pat.bind x, ty, value) ∈ subs.zip (tys.zip values) →
      bindIsVariant p x ty = true → genPatTest p (.bind x) ty value = true) :
    genPatTest.genPatTests p subs tys values = true := by
  induction subs generalizing tys values with
  | nil => rfl
  | cons sub subs ih =>
      cases tys with
      | nil => cases count
      | cons ty tys =>
          cases values with
          | nil => cases sizes
          | cons value values =>
              rw [List.all_cons, Bool.and_eq_true] at plain
              rw [genPatTest.genPatTests, Bool.and_eq_true]
              constructor
              · refine plain_passes plain.1 ?_
                rintro x rfl tests
                exact named x ty value (by simp) tests
              · refine ih (by simpa using count) (by simpa using sizes) plain.2 ?_
                intro x ty' value' inside
                exact named x ty' value' (List.mem_cons_of_mem _ inside)

/-- A name that tests for a variant is one in the eyes of the checker. -/
theorem variantOf_of_bindIsVariant {name : Ident} (tests : bindIsVariant p name st = true) :
    ((p.sumOf st).isSome && p.variantOf st name) = true := by
  rw [bindIsVariant, Bool.and_eq_true] at tests
  obtain ⟨sum, owned⟩ := tests
  rw [Bool.and_eq_true]
  refine ⟨sum, ?_⟩
  split at owned
  · rename_i idx owner fields found
    unfold Program.cgVariant at found
    split at found
    · rename_i owner' v sig
      split at found
      · rw [Option.map_eq_some_iff] at found
        obtain ⟨_, -, same⟩ := found
        cases same
        simp [Program.variantOf, sig] at owned ⊢
        exact owned
      · cases found
    · cases found
  · cases owned

/-- The variant a sum's value is of passes its own name and tests for no other. -/
theorem bind_variant_test (resolves : p.Resolves) {name : Ident} {variants : List VariantNode}
    (known : p.layout name = some (.sum variants)) {k : Nat} {v : VariantNode}
    (isVariant : variants[k]? = some v) (value : GeasValue) :
    bindIsVariant p v.name (.named name) = true ∧
      (genPatTest p (.bind v.name) (.named name) value = true ↔ value.tag.toNat = k) := by
  have found := (variant_known resolves known isVariant).2
  have sum : p.sumOf (.named name) = some variants := by simp [Program.sumOf, known]
  have tests : bindIsVariant p v.name (.named name) = true := by
    simp [bindIsVariant, sum, found, Program.tyNameOf]
  exact ⟨tests, by simp [genPatTest, tests, found]⟩

/-- The arm of a variant passes on its values when the patterns under it do. -/
theorem variant_arm_passes (resolves : p.Resolves) {name : Ident} {variants : List VariantNode}
    (known : p.layout name = some (.sum variants)) {tag : UInt32} {v : VariantNode}
    (isVariant : variants[tag.toNat]? = some v) {data : List GeasValue}
    (typed : HasTypes p (v.fields.map FieldSig.ty) data) {subs : List Pat}
    (checked : bindPat p (.variant v.name subs) (.named name) = [])
    (plain : subs.all Pat.isPlain = true)
    (passes : SubsPass p (.named name) (.sum tag (some data)) (.variant v.name subs)) :
    genPatTest p (.variant v.name subs) (.named name) (.sum tag (some data)) = true := by
  obtain ⟨sig, found⟩ := variant_known resolves known isVariant
  have sum : p.sumOf (.named name) = some variants := by simp [Program.sumOf, known]
  have owned : p.variantOf (.named name) v.name = true := by
    simp [Program.variantOf, sig, Program.tyNameOf]
  have count : subs.length = v.fields.length := by
    simp only [bindPat, sum, owned, if_pos, sig, List.append_eq_nil_iff] at checked
    by_contra differs
    simp [differs] at checked
  rw [genPatTest, found]
  simp only [GeasValue.tag, BEq.rfl, Bool.true_and, dataOf]
  refine genPatTests_pass (by simpa using count) typed.length_eq plain ?_
  intro x ty value inside
  apply passes (by simp [headTest, found, GeasValue.tag]) x ty value
  simpa [payloads, sum, isVariant, Pat.directSubs] using inside

/-- Arms that the checker takes for exhaustive select one for every value whose
payloads pass the names that test for a variant. -/
theorem match_sound (resolves : p.Resolves) {pats : List Pat}
    (accepted : checkMatch p st pats = []) (known : st ≠ .unknown) (typed : HasType p st sval)
    (subs : ∀ pat ∈ pats, SubsPass p st sval pat) : genArms p st sval pats ≠ none := by
  simp only [checkMatch, List.append_eq_nil_iff] at accepted
  obtain ⟨clean, exhaustive⟩ := accepted
  have checked := bindPat_of_checkArms clean
  have start : Counted p st (· ∈ pats) Cover.empty := counted_empty
  have counted := counted_checkArms start fun pat inside => inside
  generalize (checkArms p st Cover.empty pats).2 = cv at exhaustive counted
  cases catches : cv.catchAll with
  | true =>
      obtain ⟨pat, inside, catching⟩ := counted.catchAll catches
      refine genArms_ne_none inside (Or.inl ?_)
      rcases catching with rfl | ⟨name, rfl, binds⟩
      · rfl
      · cases tests : bindIsVariant p name st with
        | false => simp [patIrrefutable, tests]
        | true => simp [variantOf_of_bindIsVariant tests] at binds
  | false =>
      -- Without such an arm every constructor has one of its own.
      cases typed with
      | unknown => exact absurd rfl known
      | bool tag b =>
          simp [checkExhaustive, catches] at exhaustive
          cases b with
          | true =>
              exact genArms_ne_none (counted.sawTrue exhaustive.1)
                (Or.inr (by simp [genPatTest, Literal.value, geasValueEq]))
          | false =>
              exact genArms_ne_none (counted.sawFalse exhaustive.2)
                (Or.inr (by simp [genPatTest, Literal.value, geasValueEq]))
      | none =>
          simp [checkExhaustive, catches] at exhaustive
          exact genArms_ne_none (counted.sawNone exhaustive.2) (Or.inr (by simp [genPatTest, GeasValue.tag]))
      | some typed =>
          simp [checkExhaustive, catches] at exhaustive
          obtain ⟨sub, inside, plain⟩ := counted.sawSome exhaustive.1
          apply boxed_arm inside plain (subs _ inside) (by simp [headTest, GeasValue.tag]) rfl rfl
          intro passes
          simpa [genPatTest, GeasValue.tag, boxOf] using passes
      | ok typed =>
          simp [checkExhaustive, catches] at exhaustive
          obtain ⟨sub, inside, plain⟩ := counted.sawOk exhaustive.1
          apply boxed_arm inside plain (subs _ inside) (by simp [headTest, GeasValue.tag]) rfl rfl
          intro passes
          simpa [genPatTest, GeasValue.tag, boxOf] using passes
      | err typed =>
          simp [checkExhaustive, catches] at exhaustive
          obtain ⟨sub, inside, plain⟩ := counted.sawErr exhaustive.2
          apply boxed_arm inside plain (subs _ inside) (by simp [headTest, GeasValue.tag]) rfl rfl
          intro passes
          simpa [genPatTest, GeasValue.tag, boxOf] using passes
      | @sum name tag variants v data declared isVariant typed =>
          have sum : p.sumOf (.named name) = some variants := by simp [Program.sumOf, declared]
          simp [checkExhaustive, catches, sum] at exhaustive
          have covered := exhaustive v (List.mem_of_getElem? isVariant)
          rcases counted.covered v.name covered with inside | ⟨patterns, inside, plain⟩
          · exact genArms_ne_none inside
              (Or.inr ((bind_variant_test resolves declared isVariant _).2.mpr rfl))
          · exact genArms_ne_none inside (Or.inr (variant_arm_passes resolves declared isVariant
              typed (checked _ inside) plain (subs _ inside)))
      | record tag declared typed =>
          simp [checkExhaustive, catches, Program.sumOf, declared] at exhaustive
      | _ => simp [checkExhaustive, catches, Program.sumOf] at exhaustive

theorem bindPats_checked {subs : List Pat} {tys : List Ty}
    (checked : bindPat.bindPats p subs tys = []) :
    ∀ sub ty, (sub, ty) ∈ subs.zip tys → bindPat p sub ty = [] := by
  induction subs generalizing tys with
  | nil => simp
  | cons sub subs ih =>
      rw [bindPat.bindPats, List.append_eq_nil_iff] at checked
      cases tys with
      | nil => simp
      | cons ty tys =>
          intro sub' ty' inside
          rcases List.mem_cons.mp inside with same | inside
          · cases same
            exact checked.1
          · exact ih checked.2 sub' ty' inside

/-- A checked pattern has its subpatterns checked at the types they stand at. -/
theorem sub_checked {pat : Pat} (checked : bindPat p pat st = []) :
    ∀ sub ty, (sub, ty) ∈ pat.directSubs.zip (subTypes p st pat) → bindPat p sub ty = [] := by
  intro sub ty inside
  cases pat with
  | some inner =>
      cases st with
      | option ty' =>
          cases List.mem_singleton.mp inside
          exact checked
      | _ => cases inside
  | ok inner =>
      cases st with
      | result ty' err =>
          cases List.mem_singleton.mp inside
          exact checked
      | _ => cases inside
  | err inner =>
      cases st with
      | result ok ty' =>
          cases List.mem_singleton.mp inside
          exact checked
      | _ => cases inside
  | variant name subs =>
      cases st with
      | named owner =>
          unfold bindPat at checked
          split at checked
          · simp at checked
          · split at checked
            · split at checked
              · rename_i found
                rw [List.append_eq_nil_iff] at checked
                simp only [Pat.directSubs, subTypes, found] at inside
                exact bindPats_checked checked.2 sub ty inside
              · rename_i missing
                simp [subTypes, missing] at inside
            · cases checked
      | _ => simp [subTypes] at inside
  | _ => cases inside

theorem mem_zip_types {subs : List Pat} {tys : List Ty} {values : List GeasValue} {sub : Pat}
    {ty : Ty} {value : GeasValue} (inside : (sub, ty, value) ∈ subs.zip (tys.zip values)) :
    (sub, ty) ∈ subs.zip tys := by
  induction subs generalizing tys values with
  | nil => cases inside
  | cons first subs ih =>
      cases tys with
      | nil => simp at inside
      | cons ty' tys =>
          cases values with
          | nil => simp at inside
          | cons value' values =>
              rcases List.mem_cons.mp inside with same | inside
              · cases same
                exact List.mem_cons_self
              · exact List.mem_cons_of_mem _ (ih inside)

/-- A checked variant pattern that passes its constructor's check names the variant the
value is of. -/
theorem variant_of_head (resolves : p.Resolves) {name x : Ident} {variants : List VariantNode}
    (known : p.layout name = some (.sum variants)) {tag : UInt32} {v : VariantNode}
    (isVariant : variants[tag.toNat]? = some v) {data : List GeasValue} {subs : List Pat}
    (checked : bindPat p (.variant x subs) (.named name) = [])
    (head : headTest p (.variant x subs) (.sum tag (some data)) = true) :
    p.sigVariant x = some (name, v) := by
  have sum : p.sumOf (.named name) = some variants := by simp [Program.sumOf, known]
  have owned : p.variantOf (.named name) x = true := by
    by_contra other
    simp [bindPat, sum, other] at checked
  obtain ⟨k, v', here, rfl⟩ := variantOf_named resolves known owned
  obtain ⟨sig, found⟩ := variant_known resolves known here
  simp only [headTest, found, GeasValue.tag, beq_iff_eq] at head
  rw [head, here] at isVariant
  cases isVariant
  exact sig

theorem mem_zip_single {first sub : Pat} {ty ty' : Ty} {value value' : GeasValue}
    (inside : (sub, ty, value) ∈ [first].zip [(ty', value')]) :
    (sub, ty) ∈ [first].zip [ty'] := by
  cases List.mem_singleton.mp inside
  exact List.mem_singleton.mpr rfl

/-- The payloads of a value have the types that the patterns under its constructor
stand at. -/
theorem payload_types (resolves : p.Resolves) {pat : Pat} (checked : bindPat p pat st = [])
    (typed : HasType p st sval) (known : st ≠ .unknown) (head : headTest p pat sval = true)
    {sub : Pat} {ty : Ty} {value : GeasValue}
    (inside : (sub, ty, value) ∈ pat.directSubs.zip (payloads p st sval)) :
    (sub, ty) ∈ pat.directSubs.zip (subTypes p st pat) := by
  cases typed with
  | unknown => exact absurd rfl known
  | some typed =>
      cases pat with
      | some inner => exact mem_zip_single inside
      | ok inner => simp [bindPat] at checked
      | err inner => simp [bindPat] at checked
      | variant name subs => simp [bindPat, Program.sumOf] at checked
      | _ => cases inside
  | ok typed =>
      cases pat with
      | ok inner => exact mem_zip_single inside
      | err inner => simp [headTest, GeasValue.tag] at head
      | some inner => simp [bindPat] at checked
      | variant name subs => simp [bindPat, Program.sumOf] at checked
      | _ => cases inside
  | err typed =>
      cases pat with
      | err inner => exact mem_zip_single inside
      | ok inner => simp [headTest, GeasValue.tag] at head
      | some inner => simp [bindPat] at checked
      | variant name subs => simp [bindPat, Program.sumOf] at checked
      | _ => cases inside
  | @sum name tag variants v data declared isVariant typed =>
      have sum : p.sumOf (.named name) = some variants := by simp [Program.sumOf, declared]
      cases pat with
      | variant x subs =>
          have sig := variant_of_head resolves declared isVariant checked head
          simp only [payloads, sum, isVariant] at inside
          simp only [subTypes, sig]
          exact mem_zip_types inside
      | some inner => simp [bindPat] at checked
      | ok inner => simp [bindPat] at checked
      | err inner => simp [bindPat] at checked
      | _ => cases inside
  | _ => simp [payloads] at inside

end Select

/-! ### When every accepted match is exhaustive -/

/-- If the type is a sum with a payloadless variant, the value is that variant. -/
def Pinned (p : Program) (ty : Ty) (value : GeasValue) : Prop :=
  ∀ variants, p.sumOf ty = some variants → ∀ (k : Nat) (v : VariantNode),
    variants[k]? = some v → v.fields = [] → value.tag.toNat = k

section Exhaustive

variable {p : Program} {st : Ty} {sval : GeasValue}

/-- A checked name that tests for a variant passes on a pinned payload. -/
theorem bind_passes_of_pinned (resolves : p.Resolves) {x : Ident} {ty : Ty} {value : GeasValue}
    (checked : bindPat p (.bind x) ty = []) (tests : bindIsVariant p x ty = true)
    (pinned : Pinned p ty value) : genPatTest p (.bind x) ty value = true := by
  have owned := variantOf_of_bindIsVariant tests
  rw [Bool.and_eq_true] at owned
  obtain ⟨variants, sum⟩ := Option.isSome_iff_exists.mp owned.1
  obtain ⟨name, rfl, known⟩ := sumOf_eq_some sum
  obtain ⟨k, v, here, rfl⟩ := variantOf_named resolves known owned.2
  have sig := (variant_known resolves known here).1
  have payloadless : v.fields = [] := by
    by_contra carries
    have positive := List.length_pos_iff.mpr carries
    simp [bindPat, sum, owned.2, sig, positive] at checked
  exact (bind_variant_test resolves known here value).2.mpr (pinned variants sum k v here payloadless)

theorem subsPass_of_pinned (resolves : p.Resolves) (known : st ≠ .unknown)
    (typed : HasType p st sval)
    (pinned : ∀ ty value, (ty, value) ∈ payloads p st sval → Pinned p ty value) {pat : Pat}
    (checked : bindPat p pat st = []) : SubsPass p st sval pat := by
  intro head x ty value inside tests
  have sub := sub_checked checked _ _ (payload_types resolves checked typed known head inside)
  exact bind_passes_of_pinned resolves sub tests (pinned ty value (List.of_mem_zip inside).2)

/-- A payloadless variant's name is checked where its sum is expected and refuses every
other value. -/
theorem bind_refuses (resolves : p.Resolves) {ty : Ty} {variants : List VariantNode}
    (sum : p.sumOf ty = some variants) {k : Nat} {v : VariantNode}
    (here : variants[k]? = some v) (payloadless : v.fields = []) {value : GeasValue}
    (other : value.tag.toNat ≠ k) :
    bindPat p (.bind v.name) ty = [] ∧ genPatTest p (.bind v.name) ty value = false := by
  obtain ⟨name, rfl, known⟩ := sumOf_eq_some sum
  have sig := (variant_known resolves known here).1
  refine ⟨?_, ?_⟩
  · simp [bindPat, sig, payloadless]
  · rw [Bool.eq_false_iff, ne_eq, (bind_variant_test resolves known here value).2]
    exact other

theorem bindPats_wildcards (p : Program) (tys : List Ty) :
    bindPat.bindPats p (List.replicate tys.length .wildcard) tys = [] := by
  induction tys with
  | nil => rfl
  | cons ty tys ih => simpa [List.replicate_succ, bindPat.bindPats, bindPat] using ih

/-- Patterns that are checked and refuse one element of a payload refuse the payload. -/
theorem exists_refusing_subs {ty : Ty} {value : GeasValue} {x : Ident}
    (checked : bindPat p (.bind x) ty = []) (refuses : genPatTest p (.bind x) ty value = false)
    {tys : List Ty} {values : List GeasValue} (inside : (ty, value) ∈ tys.zip values) :
    ∃ subs, subs.length = tys.length ∧ subs.all Pat.isPlain = true ∧
      bindPat.bindPats p subs tys = [] ∧ genPatTest.genPatTests p subs tys values = false := by
  induction tys generalizing values with
  | nil => cases inside
  | cons ty' tys ih =>
      cases values with
      | nil => cases inside
      | cons value' values =>
          rcases List.mem_cons.mp inside with same | inside
          · cases same
            refine ⟨.bind x :: List.replicate tys.length .wildcard, by simp, ?_, ?_, ?_⟩
            · simp [Pat.isPlain]
            · simpa [bindPat.bindPats, checked] using bindPats_wildcards p tys
            · simp [genPatTest.genPatTests, refuses]
          · obtain ⟨subs, count, plain, clean, refused⟩ := ih inside
            refine ⟨.wildcard :: subs, by simp [count], by simp [Pat.isPlain, plain], ?_, ?_⟩
            · simpa [bindPat.bindPats, bindPat] using clean
            · simpa [genPatTest.genPatTests, genPatTest] using refused

/-- An arm for a variant: its name when it has no payload, the given patterns for the
target, wildcards for the others. -/
def variantArm (target : Ident) (subs : List Pat) (v : VariantNode) : Pat :=
  if v.fields.isEmpty then .bind v.name
  else if v.name = target then .variant v.name subs
  else .variant v.name (List.replicate v.fields.length .wildcard)

section VariantArm

variable {name : Ident} {variants : List VariantNode} {v : VariantNode} {subs : List Pat}

/-- The arm of a variant is checked and covers it. -/
theorem variantArm_checked (resolves : p.Resolves)
    (known : p.layout name = some (.sum variants)) {k : Nat} (isVariant : variants[k]? = some v)
    (count : subs.length = v.fields.length) (plain : subs.all Pat.isPlain = true)
    (clean : bindPat.bindPats p subs (v.fields.map FieldSig.ty) = [])
    {v' : VariantNode} (inside : v' ∈ variants) (cv : Cover) :
    bindPat p (variantArm v.name subs v') (.named name) = [] ∧
      coverPat p (.named name) cv (variantArm v.name subs v') =
        { cv with covered := v'.name :: cv.covered } := by
  obtain ⟨k', here⟩ := List.mem_iff_getElem?.mp inside
  have sig := (variant_known resolves known here).1
  have sum : p.sumOf (.named name) = some variants := by simp [Program.sumOf, known]
  have owned : p.variantOf (.named name) v'.name = true := by
    simp [Program.variantOf, sig, Program.tyNameOf]
  unfold variantArm
  split
  · rename_i payloadless
    rw [List.isEmpty_iff] at payloadless
    simp [bindPat, coverPat, sum, owned, sig, payloadless]
  · split
    · rename_i isTarget
      obtain rfl := variant_eq_of_name resolves known isVariant here isTarget
      simp [bindPat, coverPat, sum, owned, sig, count, clean, Pat.subsIrrefutable, plain]
    · have wild := bindPats_wildcards p (v'.fields.map FieldSig.ty)
      rw [List.length_map] at wild
      simp [bindPat, coverPat, sum, owned, sig, wild, Pat.subsIrrefutable, Pat.isPlain]

/-- The arms of all variants are accepted. -/
theorem variantArms_accepted (resolves : p.Resolves)
    (known : p.layout name = some (.sum variants)) {k : Nat} (isVariant : variants[k]? = some v)
    (count : subs.length = v.fields.length) (plain : subs.all Pat.isPlain = true)
    (clean : bindPat.bindPats p subs (v.fields.map FieldSig.ty) = []) :
    checkMatch p (.named name) (variants.map (variantArm v.name subs)) = [] := by
  have arms : ∀ (vs : List VariantNode) (cv : Cover), (∀ v' ∈ vs, v' ∈ variants) →
      cv.catchAll = false →
      (checkArms p (.named name) cv (vs.map (variantArm v.name subs))).1 = [] ∧
        (checkArms p (.named name) cv (vs.map (variantArm v.name subs))).2.catchAll = false ∧
        ∀ x, x ∈ cv.covered ∨ x ∈ vs.map VariantNode.name →
          x ∈ (checkArms p (.named name) cv (vs.map (variantArm v.name subs))).2.covered := by
    intro vs
    induction vs with
    | nil =>
        intro cv _ uncaught
        simp [checkArms, uncaught]
    | cons v' vs ih =>
        intro cv part uncaught
        obtain ⟨checked, covers⟩ := variantArm_checked resolves known isVariant count plain clean
          (part v' List.mem_cons_self) cv
        have rest := ih { cv with covered := v'.name :: cv.covered }
          (fun v'' inside => part v'' (List.mem_cons_of_mem _ inside)) uncaught
        have wider : ∀ x, x ∈ cv.covered ∨ x ∈ (v' :: vs).map VariantNode.name →
            x ∈ ({ cv with covered := v'.name :: cv.covered } : Cover).covered ∨
              x ∈ vs.map VariantNode.name := by
          intro x inside
          simp only [List.map_cons, List.mem_cons] at inside ⊢
          tauto
        rw [List.map_cons, checkArms, covers]
        generalize { cv with covered := v'.name :: cv.covered } = next at rest wider
        refine ⟨by simp [uncaught, checked, rest.1], rest.2.1, ?_⟩
        intro x inside
        exact rest.2.2 x (wider x inside)
  obtain ⟨faults, uncaught, covered⟩ := arms variants Cover.empty (fun _ inside => inside) rfl
  have sum : p.sumOf (.named name) = some variants := by simp [Program.sumOf, known]
  simp only [checkMatch, faults, checkExhaustive, uncaught, sum, List.nil_append]
  rw [if_neg (by simp), List.flatMap_eq_nil_iff]
  intro v' inside
  rw [if_pos (covered v'.name (Or.inr (List.mem_map_of_mem inside)))]

/-- No arm passes on a value of the target whose payload the given patterns refuse. -/
theorem variantArms_refuse (resolves : p.Resolves)
    (known : p.layout name = some (.sum variants)) {tag : UInt32}
    (isVariant : variants[tag.toNat]? = some v) (carries : v.fields ≠ []) {data : List GeasValue}
    (refused : genPatTest.genPatTests p subs (v.fields.map FieldSig.ty) data = false) :
    genArms p (.named name) (.sum tag (some data)) (variants.map (variantArm v.name subs)) =
      none := by
  apply genArms_eq_none
  intro pat inside
  obtain ⟨v', member, rfl⟩ := List.mem_map.mp inside
  obtain ⟨k, here⟩ := List.mem_iff_getElem?.mp member
  have found := (variant_known resolves known here).2
  have own : tag.toNat = k → v' = v := by
    rintro rfl
    rw [here] at isVariant
    exact Option.some.inj isVariant
  unfold variantArm
  split
  · rename_i payloadless
    obtain ⟨tests, passes⟩ := bind_variant_test resolves known here (.sum tag (some data))
    refine ⟨by simp [patIrrefutable, tests], ?_⟩
    rw [Bool.eq_false_iff, ne_eq, passes]
    intro same
    rw [List.isEmpty_iff, own same] at payloadless
    exact carries payloadless
  · split
    · rename_i isTarget
      refine ⟨rfl, ?_⟩
      obtain rfl := variant_eq_of_name resolves known isVariant here isTarget
      simp [genPatTest, found, dataOf, refused]
    · rename_i notTarget
      refine ⟨rfl, ?_⟩
      have other : tag.toNat ≠ k := fun same => notTarget (by rw [own same])
      simp [genPatTest, found, GeasValue.tag, other]

end VariantArm

/-- A payload that is not pinned is refused by the arms of an accepted match. -/
theorem exists_refusing_match (resolves : p.Resolves) (typed : HasType p st sval)
    (known : st ≠ .unknown) {ty : Ty} {value : GeasValue}
    (inside : (ty, value) ∈ payloads p st sval) (free : ¬ Pinned p ty value) :
    ∃ pats, checkMatch p st pats = [] ∧ genArms p st sval pats = none := by
  simp only [Pinned, not_forall] at free
  obtain ⟨variants, sum, k, v, here, payloadless, other⟩ := free
  obtain ⟨checked, refuses⟩ := bind_refuses resolves sum here payloadless other
  cases typed with
  | unknown => exact absurd rfl known
  | some typed =>
      simp only [payloads, List.mem_singleton, Prod.mk.injEq] at inside
      obtain ⟨rfl, rfl⟩ := inside
      refine ⟨[.some (.bind v.name), .none], ?_, ?_⟩
      · simp [checkMatch, checkArms, coverPat, Pat.subsIrrefutable, Pat.isPlain, Cover.empty,
          checkExhaustive, bindPat] at checked ⊢
        exact checked
      · simp [genArms, patIrrefutable, genPatTest, GeasValue.tag, boxOf] at refuses ⊢
        exact refuses
  | ok typed =>
      simp only [payloads, if_pos, List.mem_singleton, Prod.mk.injEq] at inside
      obtain ⟨rfl, rfl⟩ := inside
      refine ⟨[.ok (.bind v.name), .err .wildcard], ?_, ?_⟩
      · simp [checkMatch, checkArms, coverPat, Pat.subsIrrefutable, Pat.isPlain, Cover.empty,
          checkExhaustive, bindPat] at checked ⊢
        exact checked
      · simp [genArms, patIrrefutable, genPatTest, GeasValue.tag, boxOf] at refuses ⊢
        exact refuses
  | err typed =>
      simp only [payloads, List.mem_singleton, Prod.mk.injEq] at inside
      obtain ⟨rfl, rfl⟩ := inside
      refine ⟨[.ok .wildcard, .err (.bind v.name)], ?_, ?_⟩
      · simp [checkMatch, checkArms, coverPat, Pat.subsIrrefutable, Pat.isPlain, Cover.empty,
          checkExhaustive, bindPat] at checked ⊢
        exact checked
      · simp [genArms, patIrrefutable, genPatTest, GeasValue.tag, boxOf] at refuses ⊢
        exact refuses
  | @sum name tag variants' v' data declared isVariant typed =>
      have sum' : p.sumOf (.named name) = some variants' := by simp [Program.sumOf, declared]
      simp only [payloads, sum', isVariant] at inside
      obtain ⟨subs, count, plain, clean, refused⟩ := exists_refusing_subs checked refuses inside
      have carries : v'.fields ≠ [] := by
        intro empty
        simp [empty] at inside
      exact ⟨variants'.map (variantArm v'.name subs),
        variantArms_accepted resolves declared isVariant (by simpa using count) plain clean,
        variantArms_refuse resolves declared isVariant carries refused⟩
  | _ => cases inside

/-- An accepted match whose arms name no variant directly under a constructor selects
an arm for every value.  All accepted matches over a type do so exactly when the type is
known and each payload directly under a constructor of it is pinned: its type is no sum
with a payloadless variant besides that payload. -/
theorem match_exhaustive_iff (resolves : p.Resolves) (st : Ty) :
    (st ≠ .unknown → ∀ pats, checkMatch p st pats = [] →
      (∀ pat ∈ pats, ∀ x ty, (Pat.bind x, ty) ∈ pat.directSubs.zip (subTypes p st pat) →
        bindIsVariant p x ty = false) →
      ∀ sval, HasType p st sval → genArms p st sval pats ≠ none) ∧
    ((∀ pats, checkMatch p st pats = [] → ∀ sval, HasType p st sval →
        genArms p st sval pats ≠ none) ↔
      st ≠ .unknown ∧ ∀ sval, HasType p st sval → ∀ ty value, (ty, value) ∈ payloads p st sval →
        Pinned p ty value) := by
  constructor
  · intro known pats accepted binds sval typed
    refine match_sound resolves accepted known typed ?_
    intro pat inside head x ty value sub tests
    have checked := bindPat_of_checkArms (List.append_eq_nil_iff.mp accepted).1 pat inside
    have types := payload_types resolves checked typed known head sub
    rw [binds pat inside x ty types] at tests
    cases tests
  · constructor
    · intro exhaustive
      have known : st ≠ .unknown := by
        rintro rfl
        refine exhaustive [.lit (.other .int (.int 0 1))] ?_ (.int 0 2) (.unknown _) ?_
        · simp [checkMatch, checkArms, coverPat, Cover.empty, checkExhaustive, bindPat, compat]
        · simp [genArms, patIrrefutable, genPatTest, Literal.value, geasValueEq]
      refine ⟨known, ?_⟩
      intro sval typed ty value inside
      by_contra free
      obtain ⟨pats, accepted, unselected⟩ :=
        exists_refusing_match resolves typed known inside free
      exact exhaustive pats accepted sval typed unselected
    · rintro ⟨known, pinned⟩ pats accepted sval typed
      refine match_sound resolves accepted known typed ?_
      intro pat inside
      exact subsPass_of_pinned resolves known typed (pinned sval typed)
        (bindPat_of_checkArms (List.append_eq_nil_iff.mp accepted).1 pat inside)

end Exhaustive

/-- The name of a sum. -/
def colorName : Ident := ⟨ascii "Color", by decide⟩

/-- The name of its first variant. -/
def redName : Ident := ⟨ascii "Red", by decide⟩

/-- A sum of two payloadless variants. -/
def color : Program where
  own := [.sum colorName [⟨redName, []⟩, ⟨⟨ascii "Green", by decide⟩, []⟩]]

theorem color_resolves : color.Resolves :=
  ⟨by decide +kernel, by decide +kernel, by decide +kernel⟩

theorem match_exhaustive_color : color.Resolves ∧
    ∀ pats, checkMatch color (.named colorName) pats = [] → ∀ sval,
      HasType color (.named colorName) sval → genArms color (.named colorName) sval pats ≠ none := by
  refine ⟨color_resolves, (match_exhaustive_iff color_resolves _).2.mpr ⟨nofun, ?_⟩⟩
  intro sval typed ty value inside
  have sum : color.layout colorName = some (.sum
      [⟨redName, []⟩, ⟨⟨ascii "Green", by decide⟩, []⟩]) :=
    layout_of_mem color_resolves List.mem_cons_self
  cases typed with
  | record tag declared typed =>
      rw [sum] at declared
      cases declared
  | @sum name tag variants v data declared isVariant typed =>
      rw [sum] at declared
      cases declared
      have payloadless : v.fields = [] := by
        have member := List.mem_of_getElem? isVariant
        simp only [List.mem_cons, List.not_mem_nil, or_false] at member
        rcases member with rfl | rfl <;> rfl
      simp [payloads, Program.sumOf, sum, isVariant, payloadless] at inside

/-- The arms `Some(Red)` and `None` are accepted over an optional color and leave
`Some(Green)` without an arm. -/
theorem some_red_incomplete :
    checkMatch color (.option (.named colorName)) [.some (.bind redName), .none] = [] ∧
      HasType color (.option (.named colorName)) (.option 1 (some (.sum 1 (some [])))) ∧
      genArms color (.option (.named colorName)) (.option 1 (some (.sum 1 (some []))))
        [.some (.bind redName), .none] = none := by
  refine ⟨by decide +kernel, ?_, by decide +kernel⟩
  exact .some (.sum (layout_of_mem color_resolves List.mem_cons_self) rfl .nil)

end Geas.Compiler.Sigs
