import Geas.Lib.Delimited
import Geas.Runtime.Registry

/-!
# Checked types

The types the checker works with and their canonical spelling.  Two mentions of one
type share one node because nodes are interned by that spelling, and the same
spelling is what a signature hash and the shape hash are taken of.  A record, a sum
and a contract are spelled by their names alone.
-/

namespace Geas.Compiler

open Geas.Lib.Delimited
open Geas.Runtime (CString ascii)

/-! ### Identifiers -/

/-- `is_ident_start`. -/
def isIdentStart (c : UInt8) : Bool :=
  (97 ≤ c && c ≤ 122) || (65 ≤ c && c ≤ 90) || c == 95

/-- `is_ident_continue`. -/
def isIdentContinue (c : UInt8) : Bool :=
  isIdentStart c || (48 ≤ c && c ≤ 57)

/-- A word that the lexer takes for an identifier; a lone underscore is the
wildcard. -/
def lexesAsIdent : CString → Bool
  | [] => false
  | first :: rest => isIdentStart first && rest.all isIdentContinue && first :: rest != [95]

/-- An identifier. -/
structure Ident where
  text : CString
  lexes : lexesAsIdent text = true
  deriving DecidableEq, Repr

namespace Ident

theorem ext {left right : Ident} (same : left.text = right.text) : left = right := by
  cases left
  cases right
  cases same
  rfl

theorem continues (name : Ident) : ∀ c ∈ name.text, isIdentContinue c = true := by
  have lexes := name.lexes
  cases shape : name.text with
  | nil => simp
  | cons first rest =>
      rw [shape] at lexes
      simp only [lexesAsIdent, Bool.and_eq_true, List.all_eq_true] at lexes
      intro c inside
      rcases List.mem_cons.mp inside with rfl | inside
      · simp [isIdentContinue, lexes.1.1]
      · exact lexes.1.2 c inside

theorem text_ne_nil (name : Ident) : name.text ≠ [] := by
  intro empty
  have lexes := name.lexes
  rw [empty] at lexes
  cases lexes

end Ident

/-- A name is read up to the first byte that no identifier holds. -/
theorem readsAt_ident (name : Ident) : ReadsAt (Stops isIdentContinue) Ident.text name := by
  intro other left right leftStops rightStops same
  have read := word_inj name.continues other.continues leftStops rightStops same
  exact ⟨Ident.ext read.1, read.2⟩

/-! ### Types -/

/-- A checked type. -/
inductive Ty where
  | int | uint | float | bool | byte | char | str | unit
  | list (elem : Ty)
  | map (key value : Ty)
  | option (inner : Ty)
  | result (ok err : Ty)
  | tuple (elems : List Ty)
  | pledge (params : List Ty) (ret : Ty)
  | named (name : Ident)
  | contract (name : Ident)
  | unknown

namespace Ty

/-- The first byte of a spelling. -/
def code : Ty → UInt8
  | int => 73
  | uint => 85
  | float => 70
  | bool => 66
  | byte => 89
  | char => 67
  | str => 83
  | unit => 86
  | unknown => 63
  | list _ => 76
  | option _ => 79
  | map _ _ => 77
  | result _ _ => 82
  | tuple _ => 84
  | pledge _ _ => 80
  | named _ => 78
  | contract _ => 75

/-- Spellings with commas between them. -/
def commas (spellings : List CString) : CString :=
  separated 44 id spellings

/-- `ty_canon`: the canonical spelling of a type. -/
def canon : Ty → CString
  | list elem => code (list elem) :: ascii "(" ++ canon elem ++ ascii ")"
  | option inner => code (option inner) :: ascii "(" ++ canon inner ++ ascii ")"
  | map key value =>
      code (map key value) :: ascii "(" ++ canon key ++ ascii "," ++ canon value ++ ascii ")"
  | result ok err =>
      code (result ok err) :: ascii "(" ++ canon ok ++ ascii "," ++ canon err ++ ascii ")"
  | tuple elems => code (tuple elems) :: ascii "(" ++ commas (canons elems) ++ ascii ")"
  | pledge params ret =>
      code (pledge params ret) :: ascii "(" ++ commas (canons params) ++ ascii ")->" ++ canon ret
  | named name => code (named name) :: name.text
  | contract name => code (contract name) :: name.text
  | leaf => [code leaf]
where
  /-- The spellings of a list of types. -/
  canons : List Ty → List CString
    | [] => []
    | ty :: rest => canon ty :: canons rest

/-- The names of records and sums in a type. -/
def names : Ty → List Ident
  | list elem => names elem
  | option inner => names inner
  | map key value => names key ++ names value
  | result ok err => names ok ++ names err
  | tuple elems => all elems
  | pledge params ret => all params ++ names ret
  | named name => [name]
  | _ => []
where
  /-- The names in a list of types. -/
  all : List Ty → List Ident
    | [] => []
    | ty :: rest => names ty ++ all rest

theorem canons_eq_map (elems : List Ty) : canon.canons elems = elems.map canon := by
  induction elems with
  | nil => rfl
  | cons ty rest ih => rw [canon.canons, ih, List.map_cons]

theorem commas_canons (elems : List Ty) :
    commas (canon.canons elems) = separated 44 canon elems := by
  rw [canons_eq_map]
  cases elems with
  | nil => rfl
  | cons ty rest => simp [commas, separated, List.flatMap_map]

theorem canon_head (ty : Ty) : ∃ body, canon ty = code ty :: body := by
  cases ty <;> simp [canon]

theorem code_eq_of_canon {ty other : Ty} {left right : CString}
    (same : canon ty ++ left = canon other ++ right) : code ty = code other := by
  obtain ⟨body, spelled⟩ := canon_head ty
  obtain ⟨body', spelled'⟩ := canon_head other
  rw [spelled, spelled', List.cons_append, List.cons_append, List.cons.injEq] at same
  exact same.1

/-- A spelling does not start with a closing bracket. -/
theorem canon_ne_close (ty : Ty) (rest text : CString) (closed : text.head? = some 41) :
    canon ty ++ rest ≠ text := by
  obtain ⟨body, spelled⟩ := canon_head ty
  rw [spelled]
  rintro rfl
  cases ty <;> simp [code] at closed

/-- Spellings in brackets are read when each of them is. -/
theorem readsAt_elems {elems : List Ty}
    (each : ∀ ty ∈ elems, ReadsAt (Stops isIdentContinue) canon ty) :
    ReadsAt (fun text => text.head? = some 41) (separated 44 canon) elems := by
  refine readsAt_separated each (fun _ => rfl) ?_ ?_ canon_ne_close
  · intro rest closed
    cases rest with
    | nil => cases closed
    | cons first rest =>
        cases closed
        rfl
  · rintro rest _ closed rfl
    cases closed

theorem stops_comma (rest : CString) : Stops isIdentContinue (ascii "," ++ rest) := rfl

theorem stops_close (rest : CString) : Stops isIdentContinue (ascii ")" ++ rest) := rfl

theorem head_close (rest : CString) : (ascii ")" ++ rest).head? = some 41 := rfl

theorem head_arrow (rest : CString) : (ascii ")->" ++ rest).head? = some 41 := rfl

/-- Two spellings between a comma and brackets are read when each of them is. -/
theorem canon_pair_inj {first second first' second' : Ty} {left right : CString}
    (readsFirst : ReadsAt (Stops isIdentContinue) canon first)
    (readsSecond : ReadsAt (Stops isIdentContinue) canon second)
    (same : canon first ++ (ascii "," ++ (canon second ++ (ascii ")" ++ left))) =
      canon first' ++ (ascii "," ++ (canon second' ++ (ascii ")" ++ right)))) :
    first = first' ∧ second = second' ∧ left = right := by
  have comma := readsFirst first' _ _ (stops_comma _) (stops_comma _) same
  have close := readsSecond second' _ _ (stops_close _) (stops_close _)
    (List.append_cancel_left comma.2)
  exact ⟨comma.1, close.1, List.append_cancel_left close.2⟩

/-- A spelling is read up to the first byte that no identifier holds: no other type
has it. -/
theorem readsAt_canon (ty : Ty) : ReadsAt (Stops isIdentContinue) canon ty := by
  intro other left right leftStops rightStops same
  -- The first byte tells the two forms apart.
  have codes := code_eq_of_canon same
  cases ty with
  | list elem =>
      cases other with
      | list elem' =>
          simp only [canon, List.cons_append, List.append_assoc, List.cons.injEq,
            List.append_cancel_left_eq] at same
          have close := readsAt_canon elem elem' _ _ (stops_close _) (stops_close _) same.2
          exact ⟨by rw [close.1], List.append_cancel_left close.2⟩
      | _ => simp [code] at codes
  | option inner =>
      cases other with
      | option inner' =>
          simp only [canon, List.cons_append, List.append_assoc, List.cons.injEq,
            List.append_cancel_left_eq] at same
          have close := readsAt_canon inner inner' _ _ (stops_close _) (stops_close _) same.2
          exact ⟨by rw [close.1], List.append_cancel_left close.2⟩
      | _ => simp [code] at codes
  | map key value =>
      cases other with
      | map key' value' =>
          simp only [canon, List.cons_append, List.append_assoc, List.cons.injEq,
            List.append_cancel_left_eq] at same
          have pair := canon_pair_inj (readsAt_canon key) (readsAt_canon value) same.2
          exact ⟨by rw [pair.1, pair.2.1], pair.2.2⟩
      | _ => simp [code] at codes
  | result ok err =>
      cases other with
      | result ok' err' =>
          simp only [canon, List.cons_append, List.append_assoc, List.cons.injEq,
            List.append_cancel_left_eq] at same
          have pair := canon_pair_inj (readsAt_canon ok) (readsAt_canon err) same.2
          exact ⟨by rw [pair.1, pair.2.1], pair.2.2⟩
      | _ => simp [code] at codes
  | tuple elems =>
      cases other with
      | tuple elems' =>
          simp only [canon, commas_canons, List.cons_append, List.append_assoc, List.cons.injEq,
            List.append_cancel_left_eq] at same
          have close := readsAt_elems (fun ty _ => readsAt_canon ty) elems' _ _ (head_close _)
            (head_close _) same.2
          exact ⟨by rw [close.1], List.append_cancel_left close.2⟩
      | _ => simp [code] at codes
  | pledge params ret =>
      cases other with
      | pledge params' ret' =>
          simp only [canon, commas_canons, List.cons_append, List.append_assoc, List.cons.injEq,
            List.append_cancel_left_eq] at same
          have close := readsAt_elems (fun ty _ => readsAt_canon ty) params' _ _ (head_arrow _)
            (head_arrow _) same.2
          have result := readsAt_canon ret ret' _ _ leftStops rightStops
            (List.append_cancel_left close.2)
          exact ⟨by rw [close.1, result.1], result.2⟩
      | _ => simp [code] at codes
  | named name =>
      cases other with
      | named name' =>
          simp only [canon, List.cons_append, List.cons.injEq] at same
          have read := readsAt_ident name name' _ _ leftStops rightStops same.2
          exact ⟨by rw [read.1], read.2⟩
      | _ => simp [code] at codes
  | contract name =>
      cases other with
      | contract name' =>
          simp only [canon, List.cons_append, List.cons.injEq] at same
          have read := readsAt_ident name name' _ _ leftStops rightStops same.2
          exact ⟨by rw [read.1], read.2⟩
      | _ => simp [code] at codes
  | _ =>
      cases other <;> first
        | exact ⟨rfl, List.cons_injective same⟩
        | simp [code] at codes
termination_by sizeOf ty

end Ty

/-! ### Signatures -/

/-- `sig_canon`: the canonical spelling of a signature. -/
def sigCanon (params : List Ty) (ret : Ty) : CString :=
  ascii "(" ++ separated 44 Ty.canon params ++ ascii ")->" ++ ret.canon

/-- A signature in front of a byte that no identifier holds is read back. -/
theorem sigCanon_inj {params params' : List Ty} {ret ret' : Ty} {left right : CString}
    (leftStops : Stops isIdentContinue left) (rightStops : Stops isIdentContinue right)
    (same : sigCanon params ret ++ left = sigCanon params' ret' ++ right) :
    params = params' ∧ ret = ret' ∧ left = right := by
  simp only [sigCanon, List.append_assoc, List.append_cancel_left_eq] at same
  have close := Ty.readsAt_elems (fun ty _ => Ty.readsAt_canon ty) params' _ _ (Ty.head_arrow _)
    (Ty.head_arrow _) same
  have result := Ty.readsAt_canon ret ret' _ _ leftStops rightStops
    (List.append_cancel_left close.2)
  exact ⟨close.1, result.1, result.2⟩

/-! ### The hash -/

/-- `fnv1a64`. -/
def fnv1a64 (text : CString) : UInt64 :=
  text.foldl (fun h b => (h ^^^ b.toUInt64) * 1099511628211) 14695981039346656037

end Geas.Compiler
