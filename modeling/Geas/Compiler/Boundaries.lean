import Geas.Compiler.Lex

/-!
# Character boundaries

The lexer steps over a source byte by byte, and only in strings and comments over bytes
that are no ASCII.  Wherever a token may start, a character starts too: each scanner stops
at an ASCII byte, behind one, or at the end of the source.
-/

namespace Geas.Compiler.Lexing

open Geas.Lib
open Geas.Runtime (CString ascii)

/-- Bytes that start at a character and are whole characters. -/
def Boundary (bytes : List UInt8) : Prop := ∃ chars, bytes = encode chars

namespace Boundary

variable {bytes rest : List UInt8} {b : UInt8}

theorem nil : Boundary [] := ⟨[], rfl⟩

/-- A character is one small byte or none of its bytes is small. -/
theorem cons_cases (whole : Boundary (b :: rest)) :
    (∃ c : Char, b.toNat < 128 ∧ c.toNat = b.toNat ∧ String.utf8EncodeChar c = [b] ∧
      Boundary rest) ∨
    ∃ c more after, Wide c b more ∧ rest = more ++ after ∧ Boundary after := by
  obtain ⟨chars, shape⟩ := whole
  cases chars with
  | nil => cases shape
  | cons c chars =>
      rw [encode_cons] at shape
      by_cases small : c.toNat ≤ 127
      · have one := encode_ascii (Nat.lt_succ_of_le small)
        rw [one, List.singleton_append] at shape
        obtain ⟨rfl, rfl⟩ := List.cons.inj shape
        have same := toNat_byte (show c.toNat < 256 by omega)
        exact .inl ⟨c, by omega, same.symm, one, chars, rfl⟩
      · obtain ⟨lead, more, wide⟩ := wide_of_large small
        rw [wide.bytes, List.cons_append] at shape
        obtain ⟨rfl, rfl⟩ := List.cons.inj shape
        exact .inr ⟨c, more, encode chars, wide, rfl, chars, rfl⟩

theorem tail (whole : Boundary (b :: rest)) (small : b.toNat < 128) : Boundary rest := by
  rcases whole.cons_cases with ⟨c, -, -, -, after⟩ | ⟨c, more, after, wide, -, -⟩
  · exact after
  · have high := wide.high b List.mem_cons_self
    omega

end Boundary

/-- The rest starts at a character: it is empty, or a small byte starts it or stands right
before it. -/
inductive Edge : List UInt8 → List UInt8 → Prop where
  | ended (used : List UInt8) : Edge used []
  | before {used rest : List UInt8} {b : UInt8} (small : b.toNat < 128) : Edge used (b :: rest)
  | after (front : List UInt8) {rest : List UInt8} {b : UInt8} (small : b.toNat < 128) :
      Edge (front ++ [b]) rest

namespace Edge

variable {used rest : List UInt8}

theorem extend (edge : Edge used rest) (front : List UInt8) : Edge (front ++ used) rest := by
  cases edge with
  | ended => exact .ended _
  | before small => exact .before small
  | @after last _ b small =>
      rw [← List.append_assoc]
      exact .after _ small

/-- High bytes alone do not end a character. -/
theorem not_inside (more : List UInt8) {after : List UInt8} (edge : Edge used rest)
    (high : ∀ b ∈ used ++ more, 128 ≤ b.toNat) (nonempty : used ≠ []) (shape : rest = more ++ after)
    (inside : more ≠ []) : False := by
  cases edge with
  | ended =>
      exact inside (List.append_eq_nil_iff.mp shape.symm).1
  | @before used rest b small =>
      obtain ⟨first, others, rfl⟩ := List.exists_cons_of_ne_nil inside
      obtain ⟨rfl, -⟩ := List.cons.inj shape
      have large := high b (by simp)
      omega
  | @after front _ b small =>
      have large := high b (by simp)
      omega

theorem behind (front : List UInt8) (edge : Edge (front ++ used) rest) (nonempty : used ≠ []) :
    Edge used rest := by
  generalize shape : front ++ used = whole at edge
  cases edge with
  | ended => exact .ended _
  | before small => exact .before small
  | @after first _ b small =>
      obtain ⟨last, others, rfl⟩ : ∃ middle last, used = middle ++ [last] :=
        ⟨_, _, (List.dropLast_concat_getLast nonempty).symm⟩
      rw [← List.append_assoc] at shape
      obtain ⟨-, same⟩ := List.append_inj' shape rfl
      obtain rfl := (List.cons.inj same).1
      exact .after _ small

end Edge

/-- What follows an edge starts at a character. -/
theorem Boundary.of_edge (used : List UInt8) {rest : List UInt8} (whole : Boundary (used ++ rest))
    (edge : Edge used rest) : Boundary rest := by
  induction measured : used.length using Nat.strongRecOn generalizing used with
  | ind size ih =>
      cases used with
      | nil => exact whole
      | cons b used =>
          rw [List.cons_append] at whole
          simp only [List.length_cons] at measured
          rcases whole.cons_cases with ⟨c, -, -, -, after⟩ | ⟨c, more, after, wide, shape, whole'⟩
          · cases used with
            | nil => exact after
            | cons b' used =>
                refine ih _ (by omega) (b' :: used) after ?_ rfl
                exact edge.behind [b] (List.cons_ne_nil _ _)
          · rcases List.append_eq_append_iff.mp shape with ⟨inner, rfl, rfl⟩ | ⟨outer, rfl, rfl⟩
            · cases inner with
              | nil => exact whole'
              | cons b' inner =>
                  exact (edge.not_inside (b' :: inner) (by simpa using wide.high)
                    (List.cons_ne_nil _ _) rfl (List.cons_ne_nil _ _)).elim
            · cases outer with
              | nil => exact whole'
              | cons b' outer =>
                  refine ih (b' :: outer).length ?_ (b' :: outer) whole' ?_ rfl
                  · simp only [List.length_append] at measured
                    omega
                  · exact edge.behind (b :: more) (List.cons_ne_nil _ _)

/-! ### Where the scanners stop -/

section Stops

variable {lx : Lexer} {bytes : List UInt8}

/-- A run of small bytes ends at a character. -/
theorem Boundary.dropWhile {p : UInt8 → Bool} (small : ∀ b, p b = true → b.toNat < 128)
    (whole : Boundary bytes) : Boundary (bytes.dropWhile p) := by
  induction bytes with
  | nil => exact whole
  | cons b bytes ih =>
      rw [List.dropWhile_cons]
      split
      · rename_i passes
        exact ih (whole.tail (small b passes))
      · exact whole

/-- A search for a small byte ends at a character. -/
theorem edge_search {p : UInt8 → Bool} (small : ∀ b, p b = false → b.toNat < 128)
    (bytes : List UInt8) : Edge (bytes.takeWhile p) (bytes.dropWhile p) := by
  cases shape : bytes.dropWhile p with
  | nil => exact .ended _
  | cons b rest =>
      have stops := List.head?_dropWhile_not p bytes
      rw [shape] at stops
      simp only [List.head?_cons] at stops
      exact .before (small b stops)

theorem ident_small {b : UInt8} (continues : isIdentContinue b = true) : b.toNat < 128 := by
  simp only [isIdentContinue, isIdentStart, Bool.or_eq_true, Bool.and_eq_true, decide_eq_true_eq,
    beq_iff_eq, UInt8.le_iff_toNat_le] at continues
  rcases continues with ((⟨-, high⟩ | ⟨-, high⟩) | rfl) | ⟨-, high⟩
  · exact Nat.lt_of_le_of_lt high (by decide)
  · exact Nat.lt_of_le_of_lt high (by decide)
  · decide
  · exact Nat.lt_of_le_of_lt high (by decide)

theorem hexVal_small {b : UInt8} {digit : Nat} (known : hexVal b = some digit) :
    b.toNat < 128 ∧ digit < 16 ∧ b ≠ 95 := by
  have apart : b.toNat ≠ 95 → b ≠ 95 := fun differs same => differs (congrArg UInt8.toNat same)
  rw [hexVal] at known
  split_ifs at known with low lower upper
  all_goals
    rw [Option.some.injEq] at known
    exact ⟨by omega, by omega, apart (by omega)⟩

/-- The digits of a base by their value. -/
theorem isDigitOf_iff (base : Nat) (known : base = 2 ∨ base = 10 ∨ base = 16) (b : UInt8) :
    isDigitOf base b = true ↔ ∃ digit, hexVal b = some digit ∧ digit < base := by
  have value (n : Nat) (small : n < 256) : b = UInt8.ofNat n ↔ b.toNat = n :=
    ⟨fun same => by rw [same, toNat_byte small], fun same => by rw [← same, UInt8.ofNat_toNat]⟩
  rcases known with rfl | rfl | rfl
  · have zero : b = 48 ↔ b.toNat = 48 := value 48 (by decide)
    have one : b = 49 ↔ b.toNat = 49 := value 49 (by decide)
    simp only [isDigitOf, Nat.reduceEqDiff, if_false, if_true, Bool.or_eq_true, beq_iff_eq, zero,
      one]
    rw [hexVal]
    split_ifs <;> simp <;> omega
  · simp only [isDigitOf, isDigit, Nat.reduceEqDiff, if_false, Bool.and_eq_true,
      decide_eq_true_eq, UInt8.le_iff_toNat_le, hexVal]
    have low : (48 : UInt8).toNat = 48 := rfl
    have high : (57 : UInt8).toNat = 57 := rfl
    rw [low, high]
    split_ifs <;> simp <;> omega
  · simp only [isDigitOf, if_true, Option.isSome_iff_exists]
    constructor
    · rintro ⟨digit, known⟩
      exact ⟨digit, known, (hexVal_small known).2.1⟩
    · rintro ⟨digit, known, -⟩
      exact ⟨digit, known⟩

theorem digitRun_small {base : Nat} (known : base = 2 ∨ base = 10 ∨ base = 16) (b : UInt8)
    (passes : (b == 95 || isDigitOf base b) = true) : b.toNat < 128 := by
  rcases Bool.or_eq_true_iff.mp passes with same | digit
  · rw [beq_iff_eq.mp same]
    decide
  · obtain ⟨digit, value, -⟩ := (isDigitOf_iff base known b).mp digit
    exact (hexVal_small value).1

theorem isDigit_small {b : UInt8} (digit : isDigit b = true) : b.toNat < 128 :=
  digitRun_small (.inr (.inl rfl)) b (by simp [isDigitOf, digit])

theorem Boundary.digitRun (base : Nat) (known : base = 2 ∨ base = 10 ∨ base = 16)
    (whole : Boundary bytes) : Boundary (digitRun base bytes) :=
  whole.dropWhile (digitRun_small known)

/-- Two small bytes of a text can be stepped over. -/
theorem Boundary.drop_two {first second : UInt8} (whole : Boundary bytes)
    (head : bytes[0]? = some first) (next : bytes[1]? = some second) (small : first.toNat < 128)
    (small' : second.toNat < 128) : Boundary (bytes.drop 2) := by
  match bytes, head, next with
  | _ :: _ :: _, rfl, rfl => exact (whole.tail small).tail small'

theorem Boundary.exponent {marker : UInt8} (whole : Boundary bytes)
    (head : bytes[0]? = some marker) (small : marker.toNat < 128) :
    Boundary (exponent bytes) := by
  rw [Lexing.exponent]
  split_ifs with bare sign digits
  · obtain ⟨b, next, digit⟩ := (Option.any_eq_true _ _).mp bare
    exact (whole.drop_two head next small (isDigit_small digit)).digitRun 10 (.inr (.inl rfl))
  · rcases sign with next | next
    · exact (whole.drop_two head next small (by decide)).digitRun 10 (.inr (.inl rfl))
    · exact (whole.drop_two head next small (by decide)).digitRun 10 (.inr (.inl rfl))
  · exact whole
  · exact whole

theorem isFraction_iff (intEnd : List UInt8) :
    Lexer.isFraction intEnd = true ↔
      ∃ b more, intEnd = 46 :: b :: more ∧ isDigit b = true := by
  match intEnd with
  | [] => simp [Lexer.isFraction]
  | [b] => simp [Lexer.isFraction]
  | first :: b :: more =>
      simp only [Lexer.isFraction, List.head?_cons, List.getElem?_cons_succ,
        List.getElem?_cons_zero, Option.any_some, Bool.and_eq_true, beq_iff_eq, Option.some.injEq]
      constructor
      · rintro ⟨rfl, digit⟩
        exact ⟨b, more, rfl, digit⟩
      · rintro ⟨b', more', same, digit⟩
        cases same
        exact ⟨rfl, digit⟩

theorem Boundary.floatEnd (whole : Boundary bytes) (fraction : Lexer.isFraction bytes = true) :
    Boundary (Lexer.floatEnd bytes) := by
  obtain ⟨b, more, rfl, digit⟩ := (isFraction_iff bytes).mp fraction
  have frac := (whole.tail (by decide)).digitRun 10 (.inr (.inl rfl))
  rw [Lexer.floatEnd]
  simp only [List.drop_succ_cons, List.drop_zero]
  split
  · rename_i marked
    rcases marked with marker | marker
    · exact frac.exponent (List.head?_eq_getElem? ▸ marker) (by decide)
    · exact frac.exponent (List.head?_eq_getElem? ▸ marker) (by decide)
  · exact frac

theorem Boundary.numberJunk {start : Nat} (whole : Boundary lx.rest) :
    Boundary (lx.numberJunk start).rest := by
  rw [Lexer.numberJunk]
  split
  · exact whole.dropWhile fun b => ident_small
  · exact whole

theorem Boundary.radixInt {start base : Nat} {msg : CString}
    (known : base = 2 ∨ base = 10 ∨ base = 16) (whole : Boundary lx.rest) :
    Boundary (lx.radixInt start base msg).rest := by
  have after : Boundary ((lx.seek (Lexing.digitRun base lx.rest)).numberJunk start).rest :=
    Boundary.numberJunk (whole.digitRun base known)
  rw [Lexer.radixInt]
  split_ifs
  · exact after
  · exact after
  · exact after

theorem Boundary.decimal {start : Nat} (whole : Boundary lx.rest) :
    Boundary (lx.decimal start).rest := by
  have run := whole.digitRun 10 (.inr (.inl rfl))
  rw [Lexer.decimal]
  dsimp only
  split_ifs with fraction
  · exact (show Boundary (lx.seek _).rest from run.floatEnd fraction).numberJunk
  · exact (show Boundary (lx.seek _).rest from run).numberJunk
  · exact (show Boundary (lx.seek _).rest from run).numberJunk

theorem Boundary.lxNumber {start : Nat} (whole : Boundary lx.rest) :
    Boundary (lx.lxNumber start).rest := by
  rw [Lexer.lxNumber]
  split_ifs with hex binary
  · exact (show Boundary (lx.advance 2).rest from
      whole.drop_two hex.1 hex.2 (by decide) (by decide)).radixInt (.inr (.inr rfl))
  · exact (show Boundary (lx.advance 2).rest from
      whole.drop_two binary.1 binary.2 (by decide) (by decide)).radixInt (.inl rfl)
  · exact whole.decimal

/-- A string ends at its quote, at a newline or with the source. -/
theorem stringLoop_edge (start : Nat) (lx : Lexer) :
    ∃ used, lx.rest = used ++ ((Lexer.stringLoop start).run lx).rest ∧
      Edge used ((Lexer.stringLoop start).run lx).rest := by
  refine (Lexer.stringLoop start).run_rec
    (fun state result => ∃ used, state.rest = used ++ result.rest ∧
      Edge used result.rest) ?_ ?_ lx
  · intro state result turned
    change state.stringTurn start = .stop result at turned
    rw [Lexer.stringTurn] at turned
    split at turned
    · rename_i shape
      cases turned
      exact ⟨[], rfl, by rw [Lexer.err, shape]; exact .ended _⟩
    · rename_i c rest shape
      split_ifs at turned with newline quote
      · cases turned
        refine ⟨[], rfl, ?_⟩
        rw [Lexer.err, shape, newline]
        exact .before (by decide)
      · cases turned
        exact ⟨[c], shape, .after [] (by rw [quote]; decide)⟩
  · rintro state next result turned ⟨used, shape, edge⟩
    obtain ⟨front, split⟩ := (Lexer.stringTurn_again turned).1.suffix
    exact ⟨front ++ used, by rw [← split, shape, List.append_assoc], edge.extend front⟩

theorem Boundary.lxString {start : Nat} {c : UInt8} {more : List UInt8} (whole : Boundary lx.rest)
    (shape : lx.rest = c :: more) (quote : c = 34) : Boundary (lx.lxString start).rest := by
  obtain ⟨used, split, edge⟩ := stringLoop_edge start (lx.advance 1)
  refine Boundary.of_edge used ?_ edge
  rw [shape] at whole
  rw [Lexer.lxString, Lexer.push, ← split, Lexer.advance, Lexer.seek, shape]
  exact whole.tail (by rw [quote]; decide)

/-- The search for the closing quote stops at it, at a newline or with the source. -/
theorem closeQuote_edge (lx : Lexer) (start : Nat) (msg : CString) :
    ∃ used, lx.rest = used ++ (lx.closeQuote start msg).rest ∧
      Edge used (lx.closeQuote start msg).rest := by
  have taken {bytes : List UInt8} (quote : bytes[0]? = some 39) :
      bytes = [39] ++ bytes.drop 1 := by
    match bytes, quote with
    | _ :: _, rfl => rfl
  rw [Lexer.closeQuote]
  split
  · rename_i quote
    exact ⟨[39], taken quote, .after [] (by decide)⟩
  · dsimp only
    have split := (List.takeWhile_append_dropWhile
      (p := fun c : UInt8 => c != 39 && c != 10) (l := lx.rest)).symm
    split
    · rename_i quote
      refine ⟨(lx.rest.takeWhile fun c => c != 39 && c != 10) ++ [39], ?_, .after _ (by decide)⟩
      rw [List.append_assoc]
      exact split.trans (congrArg _ (taken quote))
    · refine ⟨_, split, edge_search (fun b stops => ?_) lx.rest⟩
      simp only [Bool.and_eq_false_iff, bne_eq_false_iff_eq] at stops
      rcases stops with rfl | rfl <;> decide

theorem Boundary.lxChar {start : Nat} {c : UInt8} {more : List UInt8} (whole : Boundary lx.rest)
    (shape : lx.rest = c :: more) (tick : c = 39) : Boundary (lx.lxChar start).rest := by
  obtain ⟨front, body⟩ := ((Lexer.Scans.refl (lx.advance 1)).charBody start).suffix
  obtain ⟨used, split, edge⟩ := closeQuote_edge ((lx.advance 1).charBody start) start
    (ascii "char literal must contain exactly one character")
  refine Boundary.of_edge (front ++ used) ?_ (edge.extend front)
  rw [shape] at whole
  rw [Lexer.lxChar, Lexer.push, List.append_assoc, ← split, body, Lexer.advance, Lexer.seek, shape]
  exact whole.tail (by rw [tick]; decide)

theorem Boundary.bumpScalar (whole : Boundary lx.rest) : Boundary lx.bumpScalar.rest := by
  rw [Lexer.bumpScalar]
  split
  · exact whole
  · rename_i lead rest shape
    rw [shape] at whole
    rw [Lexer.advance, Lexer.seek, shape]
    rcases whole.cons_cases with ⟨c, small, -, -, after⟩ | ⟨c, more, after, wide, rfl, whole'⟩
    · have one : utf8Len lead.toNat = 1 := by
        rw [utf8Len, if_neg (by omega), if_neg (by omega), if_neg (by omega)]
      rw [one]
      exact after
    · rw [wide.len, List.drop_succ_cons, List.drop_left]
      exact whole'

theorem matchOp_small {c : UInt8} {n2 : Option UInt8} {kind : Kind}
    (found : Lexer.matchOp c n2 = some kind) :
    c.toNat < 128 ∧ ∃ b, n2 = some b ∧ b.toNat < 128 := by
  rw [Lexer.matchOp] at found
  split_ifs at found
  all_goals
    rename_i pair
    exact ⟨by rw [pair.1]; decide, _, pair.2, by decide⟩

theorem Boundary.lxSymbol {start : Nat} {c : UInt8} {more : List UInt8} (whole : Boundary lx.rest)
    (shape : lx.rest = c :: more) : Boundary (lx.lxSymbol start c).rest := by
  rw [Lexer.lxSymbol]
  split
  · exact whole.bumpScalar
  · rename_i ascii
    have small : c.toNat < 128 := by
      rw [UInt8.le_iff_toNat_le] at ascii
      exact Nat.lt_of_not_le ascii
    have one : Boundary (lx.advance 1).rest := by
      rw [shape] at whole
      rw [Lexer.advance, Lexer.seek, shape]
      exact whole.tail small
    split
    · rename_i kind found
      obtain ⟨-, b, next, small'⟩ := matchOp_small found
      exact whole.drop_two (by rw [shape]; rfl) next small small'
    · split
      · exact one
      · exact one

theorem Boundary.lxIdent {start : Nat} (whole : Boundary lx.rest) :
    Boundary (lx.lxIdent start).rest :=
  whole.dropWhile fun _ => ident_small

/-- A block comment ends behind its closing mark or with the source. -/
theorem blockComment_edge (bytes : List UInt8) (nl : Bool) :
    ∃ used, bytes = used ++ (Lexer.blockComment nl bytes).rest ∧
      Edge used (Lexer.blockComment nl bytes).rest := by
  induction bytes generalizing nl with
  | nil => exact ⟨[], rfl, .ended _⟩
  | cons c bytes ih =>
      have further (nl : Bool) : ∃ used,
          c :: bytes = used ++ (Lexer.blockComment nl bytes).rest ∧
            Edge used (Lexer.blockComment nl bytes).rest := by
        obtain ⟨used, shape, edge⟩ := ih nl
        exact ⟨c :: used, by rw [List.cons_append, ← shape], edge.extend [c]⟩
      rw [Lexer.blockComment]
      split_ifs with newline close
      · exact further true
      · cases bytes with
        | nil => cases close.2
        | cons next rest =>
            cases close.2
            exact ⟨[c, 47], rfl, .after [c] (by decide)⟩
      · exact further nl

theorem triviaTurn_boundary {next : Lexer} (whole : Boundary lx.rest)
    (turned : lx.triviaTurn = .again next) : Boundary next.rest := by
  rw [Lexer.triviaTurn] at turned
  cases shape : lx.rest with
  | nil =>
      rw [shape] at turned
      cases turned
  | cons c rest =>
      simp only [shape] at turned
      rw [shape] at whole
      split_ifs at turned with newline blank line block
      · cases turned
        exact whole.tail (by rw [newline]; decide)
      · cases turned
        refine whole.tail ?_
        rcases blank with rfl | rfl | rfl <;> decide
      · cases turned
        rw [Lexer.skipLineComment, shape]
        refine Boundary.of_edge ((c :: rest).takeWhile fun c => c != 10) ?_
          (edge_search (fun b stops => ?_) _)
        · simpa [Lexer.seek] using whole
        · rw [bne_eq_false_iff_eq] at stops
          rw [stops]
          decide
      · cases turned
        obtain ⟨used, inside, edge⟩ := blockComment_edge (lx.rest.drop 2) lx.pendingNl
        have opened : Boundary (lx.rest.drop 2) := by
          have mark : rest[0]? = some 42 := List.head?_eq_getElem? ▸ block.2
          rw [shape]
          exact whole.drop_two rfl mark (by rw [block.1]; decide) (by decide)
        rw [inside] at opened
        rw [Lexer.skipBlockComment]
        split_ifs
        · exact opened.of_edge used edge
        · exact opened.of_edge used edge

theorem Boundary.skipTrivia (whole : Boundary lx.rest) : Boundary lx.skipTrivia.rest := by
  refine Lexer.triviaLoop.run_invariant (fun lx => Boundary lx.rest)
    (fun lx => Boundary lx.rest) ?_ ?_ whole
  · intro state next start turned
    exact triviaTurn_boundary start turned
  · intro state result start turned
    change state.triviaTurn = .stop result at turned
    rw [Lexer.triviaTurn] at turned
    split at turned
    · cases turned
      exact start
    · split_ifs at turned
      cases turned
      exact start

/-- Every scan ends at a character. -/
theorem Boundary.scanToken {c : UInt8} {more : List UInt8} (whole : Boundary lx.rest)
    (shape : lx.rest = c :: more) : Boundary (lx.scanToken c).rest := by
  rw [Lexer.scanToken]
  split_ifs with ident digit quote tick
  · exact whole.lxIdent
  · exact whole.lxNumber
  · exact whole.lxString shape quote
  · exact whole.lxChar shape tick
  · exact whole.lxSymbol shape

end Stops

end Geas.Compiler.Lexing
