import Geas.Compiler.Literals

/-!
# The partition of a source

Lexing leaves nothing out.  The tokens stand in order, and between two of them there is
whitespace, comments and what was faulted, and nothing else.  A newline in there, inside a
comment or not, is what the flag of the next token tells.

A gap is known by what fills it, one piece after the other, and a lexer between two tokens by
the tokens it has placed and by the gap behind the last one.
-/

namespace Geas.Compiler.Lexing

open Geas.Lib
open Geas.Runtime (CString ascii)
open Lexer (consumed)

/-! ## Gaps -/

/-- A byte of whitespace. -/
def isBlank (b : UInt8) : Bool := b == 10 || b == 32 || b == 9 || b == 13

/-- A comment, before what follows it.  A line comment stops before its newline, a block
comment behind the first mark that closes it. -/
inductive Comment : List UInt8 → List UInt8 → Prop where
  | line {body after : List UInt8} (within : 10 ∉ body)
      (stops : after = [] ∨ after.head? = some 10) : Comment (47 :: 47 :: body) after
  | block {body after : List UInt8} (first : ¬ [42, 47] <:+: body) :
      Comment (47 :: 42 :: (body ++ [42, 47])) after

/-- A stretch of a source from an offset on: whitespace, comments and faulted spans, one after
the other. -/
inductive Filler (src : List UInt8) (errors : List Located) (a : Nat) : Nat → Prop where
  | nil : Filler src errors a a
  | blank {b : Nat} {byte : UInt8} (before : Filler src errors a b) (here : src[b]? = some byte)
      (blank : isBlank byte = true) : Filler src errors a (b + 1)
  | comment {b c : Nat} (before : Filler src errors a b) (inside : b < c)
      (comment : Comment (slice src b c) (src.drop c)) : Filler src errors a c
  | fault {b c : Nat} {msg : CString} (before : Filler src errors a b) (inside : b < c)
      (reported : ⟨b, c, msg⟩ ∈ errors) : Filler src errors a c

namespace Filler

variable {src : List UInt8} {errors errors' : List Located} {a b c i : Nat}

theorem le (filler : Filler src errors a b) : a ≤ b := by
  induction filler with
  | nil => exact le_refl a
  | blank before here blank ih => exact Nat.le_succ_of_le ih
  | comment before inside comment ih => exact ih.trans inside.le
  | fault before inside reported ih => exact ih.trans inside.le

theorem mono (filler : Filler src errors a b) (grown : errors ⊆ errors') :
    Filler src errors' a b := by
  induction filler with
  | nil => exact .nil
  | blank before here blank ih => exact ih.blank here blank
  | comment before inside comment ih => exact ih.comment inside comment
  | fault before inside reported ih => exact ih.fault inside (grown reported)

theorem trans (front : Filler src errors a b) (back : Filler src errors b c) :
    Filler src errors a c := by
  induction back with
  | nil => exact front
  | blank before here blank ih => exact ih.blank here blank
  | comment before inside comment ih => exact ih.comment inside comment
  | fault before inside reported ih => exact ih.fault inside reported

/-- What a byte of a stretch is. -/
inductive Accounted (src : List UInt8) (errors : List Located) (a c i : Nat) : Prop where
  | blank {byte : UInt8} (here : src[i]? = some byte) (blank : isBlank byte = true)
  | comment {lo hi : Nat} (before : Filler src errors a lo)
      (comment : Comment (slice src lo hi) (src.drop hi)) (apart : hi ≤ c) (low : lo ≤ i)
      (high : i < hi)
  | fault {e : Located} (reported : e ∈ errors) (low : e.lo ≤ i) (high : i < e.hi)

theorem Accounted.widen (accounted : Accounted src errors a b i) (wider : b ≤ c) :
    Accounted src errors a c i := by
  cases accounted with
  | blank here blank => exact .blank here blank
  | comment before comment apart low high =>
      exact .comment before comment (apart.trans wider) low high
  | fault reported low high => exact .fault reported low high

theorem accounts (filler : Filler src errors a c) (low : a ≤ i) (high : i < c) :
    Accounted src errors a c i := by
  induction filler with
  | nil => exact absurd low (Nat.not_le_of_lt high)
  | @blank b byte before here blank ih =>
      by_cases early : i < b
      · exact (ih early).widen (Nat.le_succ b)
      · obtain rfl : i = b := by omega
        exact .blank here blank
  | @comment b c before within comment ih =>
      by_cases early : i < b
      · exact (ih early).widen within.le
      · exact .comment before comment (le_refl c) (Nat.le_of_not_lt early) high
  | @fault b c msg before within reported ih =>
      by_cases early : i < b
      · exact (ih early).widen within.le
      · exact .fault reported (Nat.le_of_not_lt early) high

end Filler

/-- Where the gap before a token of a list starts: behind the token before it. -/
def gapStart (tokens : List Token) : Nat → Nat
  | 0 => 0
  | k + 1 => (tokens[k]?).elim 0 Token.hi

/-- The fault of an integer that does not fit. -/
def Token.overflow (t : Token) : Located := ⟨t.lo, t.hi, ascii "integer literal overflows 64 bits"⟩

/-- The integer a token spells is reported when it is no `Int`, and read exactly otherwise. -/
def IntRight (src : List UInt8) (errors : List Located) (t : Token) : Prop :=
  t.kind = .int → ∀ value, Denotes .int (t.text src) (.int value) →
    (t.overflow ∈ errors ↔ intMax < value) ∧
      (value ≤ intMax → intValue src t.lo t.hi = value)

/-- The newline flag of a token, by the gap before it. -/
def FlagRight (src : List UInt8) (start : Nat) (t : Token) : Prop :=
  t.nlBefore = true ↔ ∃ i, start ≤ i ∧ i < t.lo ∧ src[i]? = some 10

/-- A byte outside the tokens, in the gap before one of them. -/
inductive Outside (src : List UInt8) (tokens : List Token) (errors : List Located) (i : Nat) :
    Prop where
  | whitespace {byte : UInt8} (here : src[i]? = some byte) (blank : isBlank byte = true)
  | comment {k lo hi : Nat} {t : Token} (next : tokens[k]? = some t)
      (before : Filler src errors (gapStart tokens k) lo)
      (comment : Comment (slice src lo hi) (src.drop hi)) (apart : hi ≤ t.lo)
      (from' : lo ≤ i) (inside : i < hi)
  | faulted {e : Located} (reported : e ∈ errors) (from' : e.lo ≤ i) (inside : i < e.hi)

/-- The tokens and the faults of a source account for all of it. -/
structure Partition (src : List UInt8) (tokens : List Token) (errors : List Located) : Prop where
  ends : ∃ front nl, tokens = front ++ [⟨.eof, src.length, src.length, nl⟩] ∧
    ∀ t ∈ front, t.kind ≠ .eof ∧ t.lo < t.hi
  inside : ∀ t ∈ tokens, t.lo ≤ t.hi ∧ t.hi ≤ src.length
  ordered : tokens.Pairwise fun t t' => t.hi ≤ t'.lo
  gaps : ∀ k t, tokens[k]? = some t → Filler src errors (gapStart tokens k) t.lo
  outside : ∀ i, i < src.length → (∀ t ∈ tokens, ¬(t.lo ≤ i ∧ i < t.hi)) →
    Outside src tokens errors i
  flags : ∀ k t, tokens[k]? = some t → FlagRight src (gapStart tokens k) t
  integers : ∀ t ∈ tokens, IntRight src errors t

/-! ## Offsets -/

theorem Lexer.Reads.pos_le {lx after : Lexer} (reads : lx.Reads after) : lx.pos ≤ after.pos := by
  have shorter := reads.length_le
  rw [Lexer.pos, Lexer.pos, reads.n]
  omega

/-- A lexer on its way through a source. -/
structure Along (src : List UInt8) (lx : Lexer) : Prop where
  n : lx.n = src.length
  suffix : lx.rest <:+ src

namespace Along

variable {src : List UInt8} {lx after : Lexer}

theorem reads (along : Along src lx) (reads : lx.Reads after) : Along src after :=
  ⟨reads.n.trans along.n, reads.suffix.trans along.suffix⟩

theorem pos_le (along : Along src lx) : lx.pos ≤ src.length := by
  rw [Lexer.pos, along.n]
  exact Nat.sub_le _ _

theorem drop_pos (along : Along src lx) : src.drop lx.pos = lx.rest := by
  rw [Lexer.pos, along.n]
  exact (List.suffix_iff_eq_drop.mp along.suffix).symm

theorem pos_lt (along : Along src lx) (reads : lx.Reads after)
    (less : after.rest.length < lx.rest.length) : lx.pos < after.pos := by
  have inside := along.suffix.length_le
  rw [Lexer.pos, Lexer.pos, reads.n, along.n]
  omega

theorem slice_pos (along : Along src lx) (reads : lx.Reads after) :
    slice src lx.pos after.pos = consumed lx.rest after.rest := by
  rw [Lexer.pos, Lexer.pos, reads.n, along.n]
  exact slice_consumed along.suffix reads.suffix

end Along

theorem slice_append {src : List UInt8} {a b c : Nat} (first : a ≤ b) (second : b ≤ c) :
    slice src a c = slice src a b ++ slice src b c := by
  have front : (src.take b).drop a = ((src.take c).drop a).take (b - a) := by
    rw [← List.drop_take, List.take_take, Nat.min_eq_left second]
  have rest : (src.take c).drop b = ((src.take c).drop a).drop (b - a) := by
    rw [List.drop_drop, Nat.add_sub_cancel' first]
  rw [slice, slice, slice, front, rest, List.take_append_drop]

theorem mem_slice {src : List UInt8} {a b : Nat} {byte : UInt8} :
    byte ∈ slice src a b ↔ ∃ i, a ≤ i ∧ i < b ∧ src[i]? = some byte := by
  rw [List.mem_iff_getElem?]
  constructor
  · rintro ⟨i, here⟩
    rw [slice_getElem] at here
    split at here
    · exact ⟨a + i, Nat.le_add_right a i, by assumption, here⟩
    · cases here
  · rintro ⟨i, low, high, here⟩
    refine ⟨i - a, ?_⟩
    rw [slice_getElem, Nat.add_sub_cancel' low, if_pos high]
    exact here

/-! ## Between two tokens -/

/-- A lexer that went on over what is no token. -/
structure Skips (src : List UInt8) (lx after : Lexer) : Prop extends lx.Reads after where
  flag : after.pendingNl = true ↔ lx.pendingNl = true ∨ 10 ∈ consumed lx.rest after.rest
  faults : ∃ new, after.errors = lx.errors ++ new ∧ ∀ e ∈ new, lx.pos ≤ e.lo ∧ e.hi ≤ after.pos
  fills : Filler src after.errors lx.pos after.pos

namespace Skips

variable {src : List UInt8} {first second third : Lexer}

theorem refl (lx : Lexer) : Skips src lx lx where
  toReads := .refl lx
  flag := by simp [consumed]
  faults := ⟨[], (List.append_nil _).symm, fun _ inside => nomatch inside⟩
  fills := .nil

theorem trans (along : Along src first) (front : Skips src first second)
    (back : Skips src second third) : Skips src first third where
  toReads := front.toReads.trans back.toReads
  flag := by
    have behind := along.reads front.toReads
    have whole := front.toReads.trans back.toReads
    rw [back.flag, front.flag, or_assoc, ← along.slice_pos whole, ← along.slice_pos front.toReads,
      ← behind.slice_pos back.toReads, ← List.mem_append,
      ← slice_append front.toReads.pos_le back.toReads.pos_le]
  faults := by
    obtain ⟨new, grown, within⟩ := front.faults
    obtain ⟨new', grown', within'⟩ := back.faults
    have forward := front.toReads.pos_le
    have forward' := back.toReads.pos_le
    refine ⟨new ++ new', by rw [grown', grown, List.append_assoc], fun e inside => ?_⟩
    rcases List.mem_append.mp inside with old | later
    · exact ⟨(within e old).1, (within e old).2.trans forward'⟩
    · exact ⟨forward.trans (within' e later).1, (within' e later).2⟩
  fills := (front.fills.mono back.errors.subset).trans back.fills

end Skips

section Trivia

variable {src : List UInt8} {lx after : Lexer} {c : UInt8} {rest : List UInt8}

theorem Along.getElem_pos (along : Along src lx) (shape : lx.rest = c :: rest) :
    src[lx.pos]? = some c := by
  have here : (src.drop lx.pos)[0]? = some c := by rw [along.drop_pos, shape]; rfl
  rwa [List.getElem?_drop, Nat.add_zero] at here

theorem Along.pos_append {used : List UInt8} (along : Along src lx) (n : after.n = lx.n)
    (split : lx.rest = used ++ after.rest) : after.pos = lx.pos + used.length := by
  have inside := along.suffix.length_le
  have lengths := congrArg List.length split
  rw [List.length_append] at lengths
  rw [Lexer.pos, Lexer.pos, n, along.n]
  omega

theorem consumed_eq {bytes rest used : List UInt8} (split : bytes = used ++ rest) :
    consumed bytes rest = used := by
  rw [split, consumed_append]

/-- A step over a comment that no fault was recorded for. -/
theorem Skips.of_comment (used : List UInt8) (along : Along src lx) (n : after.n = lx.n)
    (tokens : after.tokens = lx.tokens) (errors : after.errors = lx.errors)
    (split : lx.rest = used ++ after.rest) (comment : Comment used after.rest)
    (flag : after.pendingNl = true ↔ lx.pendingNl = true ∨ 10 ∈ used) : Skips src lx after := by
  have reads : lx.Reads after := ⟨n, tokens, ⟨used, split.symm⟩, errors ▸ List.prefix_rfl⟩
  have text : slice src lx.pos after.pos = used := by
    rw [along.slice_pos reads, consumed_eq split]
  have nonempty : 0 < used.length := by
    cases comment with
    | line => exact Nat.succ_pos _
    | block => exact Nat.succ_pos _
  refine ⟨reads, by rw [consumed_eq split]; exact flag,
    ⟨[], by rw [errors, List.append_nil], fun _ inside => nomatch inside⟩, ?_⟩
  refine Filler.nil.comment ?_ ?_
  · rw [along.pos_append n split]
    omega
  · rw [text, (along.reads reads).drop_pos]
    exact comment

/-- A step over one byte of whitespace. -/
theorem Skips.of_blank (along : Along src lx) (n : after.n = lx.n)
    (tokens : after.tokens = lx.tokens) (errors : after.errors = lx.errors)
    (split : lx.rest = c :: after.rest) (blank : isBlank c = true)
    (flag : after.pendingNl = true ↔ lx.pendingNl = true ∨ c = 10) : Skips src lx after := by
  have one : lx.rest = [c] ++ after.rest := split
  have reads : lx.Reads after := ⟨n, tokens, ⟨[c], one.symm⟩, errors ▸ List.prefix_rfl⟩
  refine ⟨reads, ?_, ⟨[], by rw [errors, List.append_nil], fun _ inside => nomatch inside⟩, ?_⟩
  · rw [consumed_eq one, List.mem_singleton, @eq_comm _ 10]
    exact flag
  · rw [along.pos_append n one]
    exact Filler.nil.blank (along.getElem_pos split) blank

/-- A step over a stretch that one fault was recorded for. -/
theorem Skips.of_fault (used : List UInt8) {msg : CString} (along : Along src lx) (n : after.n = lx.n)
    (tokens : after.tokens = lx.tokens) (errors : after.errors = lx.errors ++ [⟨lx.pos, after.pos, msg⟩])
    (split : lx.rest = used ++ after.rest) (nonempty : used ≠ [])
    (flag : after.pendingNl = true ↔ lx.pendingNl = true ∨ 10 ∈ used) : Skips src lx after := by
  have reads : lx.Reads after :=
    ⟨n, tokens, ⟨used, split.symm⟩, errors ▸ List.prefix_append _ _⟩
  refine ⟨reads, by rw [consumed_eq split]; exact flag, ⟨_, errors, ?_⟩, ?_⟩
  · intro e inside
    obtain rfl := List.mem_singleton.mp inside
    exact ⟨le_refl _, le_refl _⟩
  · refine Filler.fault .nil ?_ (errors.symm ▸ List.mem_append_right _ List.mem_cons_self)
    have some' := List.length_pos_iff.mpr nonempty
    rw [along.pos_append n split]
    omega

/-- A block comment is closed by the first mark that closes it, or takes all there is. -/
theorem blockComment_spec (bytes : List UInt8) (nl : Bool) :
    (∃ body, (Lexer.blockComment nl bytes).closed = true ∧
      bytes = body ++ 42 :: 47 :: (Lexer.blockComment nl bytes).rest ∧ ¬ [42, 47] <:+: body ∧
      ((Lexer.blockComment nl bytes).nl = true ↔ nl = true ∨ 10 ∈ body)) ∨
    ((Lexer.blockComment nl bytes).closed = false ∧ (Lexer.blockComment nl bytes).rest = [] ∧
      ((Lexer.blockComment nl bytes).nl = true ↔ nl = true ∨ 10 ∈ bytes)) := by
  induction bytes generalizing nl with
  | nil => exact .inr ⟨rfl, rfl, by simp [Lexer.blockComment]⟩
  | cons c bytes ih =>
      rw [Lexer.blockComment]
      split_ifs with newline close
      · rcases ih true with ⟨body, closed, shape, first, flag⟩ | ⟨ended, rest, flag⟩
        · refine .inl ⟨c :: body, closed, congrArg (List.cons c) shape, ?_, ?_⟩
          · rw [List.infix_cons_iff, List.cons_prefix_cons]
            rintro (⟨same, -⟩ | inner)
            · rw [newline] at same
              cases same
            · exact first inner
          · simp [flag, newline]
        · exact .inr ⟨ended, rest, by simp [flag, newline]⟩
      · obtain ⟨rfl, next⟩ := close
        obtain ⟨rest, rfl⟩ := List.head?_eq_some_iff.mp next
        exact .inl ⟨[], rfl, rfl, by simp, by simp⟩
      · have apart : (10 : UInt8) ≠ c := fun same => newline same.symm
        rcases ih nl with ⟨body, closed, shape, first, flag⟩ | ⟨ended, rest, flag⟩
        · refine .inl ⟨c :: body, closed, congrArg (List.cons c) shape, ?_, ?_⟩
          · rw [List.infix_cons_iff, List.cons_prefix_cons]
            rintro (⟨same, inner⟩ | inner)
            · obtain ⟨more, inside⟩ := inner
              refine close ⟨same.symm, ?_⟩
              rw [shape, ← inside]
              rfl
            · exact first inner
          · simp [flag, apart]
        · exact .inr ⟨ended, rest, by simp [flag, apart]⟩

theorem triviaTurn_skips (along : Along src lx) (turned : lx.triviaTurn = .again after) :
    Skips src lx after := by
  rw [Lexer.triviaTurn] at turned
  cases shape : lx.rest with
  | nil =>
      rw [shape] at turned
      cases turned
  | cons c rest =>
      simp only [shape] at turned
      split_ifs at turned with newline blank line block
      · cases turned
        exact .of_blank along rfl rfl rfl shape (by rw [newline]; rfl) (by simp [newline])
      · cases turned
        refine .of_blank along rfl rfl rfl shape ?_ ?_
        · rcases blank with rfl | rfl | rfl <;> rfl
        · simp [Lexer.seek, newline]
      · cases turned
        obtain ⟨rfl, next⟩ := line
        obtain ⟨more, rfl⟩ := List.head?_eq_some_iff.mp next
        have taken : lx.rest = (47 :: 47 :: more.takeWhile fun c => c != 10) ++
            lx.skipLineComment.rest := by
          rw [Lexer.skipLineComment, Lexer.seek, shape, List.dropWhile_cons_of_pos (by decide),
            List.dropWhile_cons_of_pos (by decide), List.cons_append, List.cons_append,
            List.takeWhile_append_dropWhile]
        have within : 10 ∉ more.takeWhile fun c => c != 10 := by
          intro inside
          cases List.all_eq_true.mp List.all_takeWhile 10 inside
        refine .of_comment _ along rfl rfl rfl taken (.line within ?_) ?_
        · rw [Lexer.skipLineComment, Lexer.seek]
          have stops := List.head?_dropWhile_not (fun c : UInt8 => c != 10) lx.rest
          cases ends : lx.rest.dropWhile fun c => c != 10 with
          | nil => exact .inl rfl
          | cons b after =>
              rw [ends] at stops
              simp only [List.head?_cons, bne_eq_false_iff_eq] at stops
              exact .inr (by rw [List.head?_cons, stops])
        · simp [Lexer.skipLineComment, Lexer.seek, within]
      · cases turned
        obtain ⟨rfl, next⟩ := block
        obtain ⟨more, rfl⟩ := List.head?_eq_some_iff.mp next
        have opened : lx.rest.drop 2 = more := by rw [shape]; rfl
        rw [Lexer.skipBlockComment, opened]
        rcases blockComment_spec more lx.pendingNl with
          ⟨body, closed, split, first, flag⟩ | ⟨ended, rest, flag⟩
        · rw [if_pos closed]
          refine .of_comment (47 :: 42 :: (body ++ [42, 47])) along rfl rfl rfl ?_ (.block first) ?_
          · rw [shape]
            conv => lhs; rw [split]
            simp
          · rw [flag]
            simp
        · rw [if_neg (by rw [ended]; decide)]
          refine .of_fault (47 :: 42 :: more) along rfl rfl rfl ?_ (List.cons_ne_nil _ _) ?_
          · rw [shape]
            show _ = _ ++ (Lexer.blockComment lx.pendingNl more).rest
            rw [rest, List.append_nil]
          · show (Lexer.blockComment lx.pendingNl more).nl = true ↔ _
            rw [flag]
            simp

theorem skipTrivia_skips (along : Along src lx) : Skips src lx lx.skipTrivia := by
  refine Lexer.triviaLoop.run_rec (fun lx after => Along src lx → Skips src lx after)
    ?_ ?_ lx along
  · intro state result turned along
    change state.triviaTurn = .stop result at turned
    rw [Lexer.triviaTurn] at turned
    split at turned
    · cases turned
      exact .refl state
    · split_ifs at turned
      cases turned
      exact .refl state
  · intro state next result turned skips along
    have step := triviaTurn_skips along turned
    exact step.trans along (skips (along.reads step.toReads))

/-- Trivia ends before a byte that is no newline. -/
theorem Lexer.skipTrivia_stops (lx : Lexer) : lx.skipTrivia.rest.head? ≠ some 10 := by
  refine Lexer.triviaLoop.run_rec (fun _ after => after.rest.head? ≠ some 10) ?_ ?_ lx
  · intro state result turned
    change state.triviaTurn = .stop result at turned
    rw [Lexer.triviaTurn] at turned
    split at turned
    · rename_i shape
      cases turned
      rw [shape]
      exact Option.some_ne_none 10 |>.symm
    · rename_i c rest shape
      split_ifs at turned with newline
      cases turned
      rw [shape, List.head?_cons, ne_eq, Option.some.injEq]
      exact newline
  · intro _ _ _ _ stops
    exact stops

end Trivia

/-! ## Inside a token -/

/-- A lexer that has read on inside a token, and the faults it added lie inside it too. -/
structure Blames (start : Nat) (before after : Lexer) : Prop extends before.Scans after where
  faults : ∃ new, after.errors = before.errors ++ new ∧
    ∀ e ∈ new, start ≤ e.lo ∧ e.hi ≤ after.pos

namespace Blames

variable {src : List UInt8} {start : Nat} {first second third : Lexer}

theorem refl (lx : Lexer) : Blames start lx lx where
  toScans := .refl lx
  faults := ⟨[], (List.append_nil _).symm, fun _ inside => nomatch inside⟩

theorem trans (front : Blames start first second) (back : Blames start second third) :
    Blames start first third where
  toScans := front.toScans.trans back.toScans
  faults := by
    obtain ⟨new, grown, within⟩ := front.faults
    obtain ⟨new', grown', within'⟩ := back.faults
    have forward := back.toReads.pos_le
    refine ⟨new ++ new', by rw [grown', grown, List.append_assoc], fun e inside => ?_⟩
    rcases List.mem_append.mp inside with old | later
    · exact ⟨(within e old).1, (within e old).2.trans forward⟩
    · exact within' e later

/-- Reading on without a fault. -/
theorem of_scans (scans : first.Scans second) (quiet : second.errors = first.errors) :
    Blames start first second where
  toScans := scans
  faults := ⟨[], by rw [quiet, List.append_nil], fun _ inside => nomatch inside⟩

theorem seek {rest : List UInt8} (blames : Blames start first second)
    (suffix : rest <:+ second.rest) : Blames start first (second.seek rest) :=
  blames.trans (of_scans ((Lexer.Scans.refl second).seek suffix) rfl)

theorem advance (blames : Blames start first second) (m : Nat) :
    Blames start first (second.advance m) :=
  blames.seek (List.drop_suffix m _)

theorem err {lo : Nat} (blames : Blames start first second) (behind : start ≤ lo)
    (msg : CString) : Blames start first (second.err lo msg) := by
  refine blames.trans ⟨(Lexer.Scans.refl second).err lo msg, _, rfl, fun e inside => ?_⟩
  obtain rfl := List.mem_singleton.mp inside
  exact ⟨behind, le_refl _⟩

theorem bumpScalar (blames : Blames start first second) :
    Blames start first second.bumpScalar := by
  rw [Lexer.bumpScalar]
  split
  · exact blames
  · exact blames.advance _

theorem numberJunk (blames : Blames start first second) :
    Blames start first (second.numberJunk start) := by
  rw [Lexer.numberJunk]
  split
  · exact (blames.seek (List.dropWhile_suffix _)).err (le_refl start) _
  · exact blames

theorem scanOneEscape (blames : Blames start first second) (behind : start ≤ second.pos) :
    Blames start first second.scanOneEscape := by
  have suffix := (scanEscape_suffix (second.rest.drop 1)).trans (List.drop_suffix 1 second.rest)
  rw [Lexer.scanOneEscape]
  split
  · exact blames.seek suffix
  · exact (blames.seek suffix).err behind _

theorem charBody (blames : Blames start first second) (behind : start ≤ second.pos) :
    Blames start first (second.charBody start) := by
  rw [Lexer.charBody]
  split
  · exact blames.err (le_refl start) _
  · split_ifs
    · exact blames.err (le_refl start) _
    · exact blames.scanOneEscape behind
    · exact blames.advance 1
    · exact blames.bumpScalar

theorem closeQuote (blames : Blames start first second) (msg : CString) :
    Blames start first (second.closeQuote start msg) := by
  have found := blames.seek
    (List.dropWhile_suffix (l := second.rest) fun c => c != 39 && c != 10)
  rw [Lexer.closeQuote]
  split
  · exact blames.advance 1
  · dsimp only
    split
    · exact (found.advance 1).err (le_refl start) _
    · exact found.err (le_refl start) _

end Blames

theorem stringLoop_blames (start : Nat) (lx : Lexer) (behind : start ≤ lx.pos) :
    Blames start lx ((Lexer.stringLoop start).run lx) := by
  refine (Lexer.stringLoop start).run_rec
    (fun lx after => start ≤ lx.pos → Blames start lx after) ?_ ?_ lx behind
  · intro state result turned behind
    change state.stringTurn start = .stop result at turned
    rw [Lexer.stringTurn] at turned
    split at turned
    · cases turned
      exact (Blames.refl state).err (le_refl start) _
    · rename_i c rest shape
      split_ifs at turned
      · cases turned
        exact (Blames.refl state).err (le_refl start) _
      · cases turned
        exact (Blames.refl state).seek (shape ▸ List.suffix_cons c rest)
  · intro state next result turned blames behind
    have reads := (Lexer.stringTurn_again turned).1.toReads
    have step : Blames start state next := by
      change state.stringTurn start = .again next at turned
      rw [Lexer.stringTurn] at turned
      split at turned
      · cases turned
      · rename_i c rest shape
        split_ifs at turned
        · cases turned
          exact (Blames.refl state).scanOneEscape behind
        · cases turned
          exact (Blames.refl state).seek (shape ▸ List.suffix_cons c rest)
    exact step.trans (blames (behind.trans reads.pos_le))

/-! ### Integers -/

section Integers

variable {base start : Nat} {bytes : List UInt8} {lx : Lexer}

theorem digitRun_stops {b : UInt8} {more : List UInt8} (shape : digitRun base bytes = b :: more) :
    b ≠ 95 ∧ isDigitOf base b = false := by
  have stops := List.head?_dropWhile_not (fun c => c == 95 || isDigitOf base c) bytes
  rw [show bytes.dropWhile (fun c => c == 95 || isDigitOf base c) = b :: more from shape] at stops
  simpa using stops

/-- What a scanned integer tells of an integer its text spells: the overflow is its only fault, or
there is none. -/
def Tells (lx mid : Lexer) (start value : Nat) : Prop :=
  (mid.errors = lx.errors ∧ value ≤ intMax) ∨
    (mid.errors = lx.errors ++ [⟨start, mid.pos, ascii "integer literal overflows 64 bits"⟩] ∧
      intMax < value)

/-- Digits alone have no junk behind them. -/
theorem no_junk {digits : List Nat} (known : base = 2 ∨ base = 10 ∨ base = 16)
    (spelled : Digits base
      (consumed lx.rest ((lx.seek (digitRun base lx.rest)).numberJunk start).rest) digits) :
    (lx.seek (digitRun base lx.rest)).numberJunk start = lx.seek (digitRun base lx.rest) := by
  rw [Lexer.numberJunk] at spelled ⊢
  split at spelled
  · rename_i junk
    obtain ⟨b, first, continues⟩ := (Option.any_eq_true _ _).mp junk
    obtain ⟨more, shape⟩ := List.head?_eq_some_iff.mp
      (show (digitRun base lx.rest).head? = some b from List.head?_eq_getElem? ▸ first)
    obtain ⟨text, -, split, -⟩ := digitRun_spells base known lx.rest
    obtain ⟨apart, no⟩ := digitRun_stops shape
    have whole : lx.rest = (text ++ (b :: more).takeWhile isIdentContinue) ++
        (digitRun base lx.rest).dropWhile isIdentContinue := by
      rw [List.append_assoc, shape, List.takeWhile_append_dropWhile, ← shape]
      exact split
    have digits' : Digits base (text ++ (b :: more).takeWhile isIdentContinue) digits := by
      rw [← consumed_eq whole]
      exact spelled
    have inside : b ∈ text ++ (b :: more).takeWhile isIdentContinue := by
      rw [List.takeWhile_cons_of_pos continues]
      exact List.mem_append_right _ List.mem_cons_self
    rcases digits'.mem inside with separator | digit
    · exact absurd separator apart
    · rw [(isDigitOf_iff base known b).mpr digit] at no
      cases no
  · rename_i clear
    rw [if_neg clear]

/-- The digits of a run, counted. -/
theorem digitCount_pos {digits : List Nat} (known : base = 2 ∨ base = 10 ∨ base = 16)
    (spelled : Digits base (consumed bytes (digitRun base bytes)) digits) (nonempty : digits ≠ []) :
    digitCount base bytes ≠ 0 := by
  obtain ⟨text, digits', split, spelled', count⟩ := digitRun_spells base known bytes
  rw [consumed_eq split] at spelled
  rw [← count, spelled'.unique spelled]
  exact mt List.length_eq_zero_iff.mp nonempty

theorem radixInt_tells (known : base = 2 ∨ base = 10 ∨ base = 16) (lx : Lexer) (start : Nat)
    (msg : CString) :
    ∃ mid, lx.radixInt start base msg = mid.push .int start ∧ Blames start lx mid ∧
      ∀ digits, Digits base (consumed lx.rest mid.rest) digits → digits ≠ [] →
        Tells lx mid start (number base digits) := by
  have blames : Blames start lx ((lx.seek (digitRun base lx.rest)).numberJunk start) :=
    ((Blames.refl lx).seek (Lexer.digitRun_suffix base lx.rest)).numberJunk
  refine ⟨_, rfl, ?_, fun digits spelled nonempty => ?_⟩
  · split_ifs
    · exact blames.err (le_refl start) _
    · exact blames.err (le_refl start) _
    · exact blames
  · have text : Digits base
        (consumed lx.rest ((lx.seek (digitRun base lx.rest)).numberJunk start).rest) digits := by
      split_ifs at spelled
      · exact spelled
      · exact spelled
      · exact spelled
    have clear := no_junk known text
    rw [clear] at text ⊢
    have exact' := intOverflows_iff text (show 0 < base by omega)
    rw [if_neg (digitCount_pos known text nonempty)]
    split_ifs with past
    · exact .inr ⟨rfl, exact'.mp past⟩
    · exact .inl ⟨rfl, Nat.le_of_not_lt (mt exact'.mpr past)⟩

theorem decimal_tells (lx : Lexer) (start : Nat) :
    ∃ mid kind, lx.decimal start = mid.push kind start ∧ Blames start lx mid ∧ kind ≠ .eof ∧
      (kind = .int → ∀ digits, Digits 10 (consumed lx.rest mid.rest) digits →
        Tells lx mid start (number 10 digits)) := by
  have run := Lexer.digitRun_suffix 10 lx.rest
  cases fraction : Lexer.isFraction (digitRun 10 lx.rest) with
  | true =>
      refine ⟨_, .float, by rw [Lexer.decimal, if_pos fraction],
        ((Blames.refl lx).seek ((Lexer.floatEnd_suffix _).trans run)).numberJunk, by decide, ?_⟩
      intro int
      cases int
  | false =>
      have blames : Blames start lx ((lx.seek (digitRun 10 lx.rest)).numberJunk start) :=
        ((Blames.refl lx).seek run).numberJunk
      refine ⟨_, .int, by simp only [Lexer.decimal, fraction, Bool.false_eq_true, if_false]; rfl,
        ?_, by decide, fun _ digits spelled => ?_⟩
      · split_ifs
        · exact blames.err (le_refl start) _
        · exact blames
      · have text : Digits 10
            (consumed lx.rest ((lx.seek (digitRun 10 lx.rest)).numberJunk start).rest) digits := by
          split_ifs at spelled
          · exact spelled
          · exact spelled
        have clear := no_junk (.inr (.inl rfl)) text
        rw [clear] at text ⊢
        have exact' := intOverflows_iff text (show 0 < 10 by decide)
        split_ifs with past
        · exact .inr ⟨rfl, exact'.mp past⟩
        · exact .inl ⟨rfl, Nat.le_of_not_lt (mt exact'.mpr past)⟩

/-- An integer behind the mark of its base. -/
theorem marked_tells {marker : UInt8} (start : Nat) (msg : CString)
    (known : base = 2 ∧ marker = 98 ∨ base = 16 ∧ marker = 120)
    (head : lx.peek 0 = some 48) (next : lx.peek 1 = some marker) :
    ∃ mid, (lx.advance 2).radixInt start base msg = mid.push .int start ∧ Blames start lx mid ∧
      ∀ value, Denotes .int (consumed lx.rest mid.rest) (.int value) →
        Tells lx mid start value := by
  obtain ⟨mid, same, blames, tells⟩ :=
    radixInt_tells (show base = 2 ∨ base = 10 ∨ base = 16 by omega) (lx.advance 2) start msg
  refine ⟨mid, same, ((Blames.refl lx).advance 2).trans blames, fun value denotes => ?_⟩
  obtain ⟨used, split⟩ := blames.suffix
  have whole : lx.rest = (48 :: marker :: used) ++ mid.rest := by
    rw [List.cons_append, List.cons_append, split]
    exact two_bytes head next
  rw [consumed_eq whole] at denotes
  obtain ⟨digits, spelled, nonempty, rfl⟩ := denotes.of_radix known
  refine tells digits ?_ nonempty
  rw [consumed_eq split.symm]
  exact spelled

/-- A number without a mark is spelled in decimal. -/
theorem Denotes.of_unmarked {text : List UInt8} {value : Nat}
    (denotes : Denotes .int text (.int value))
    (unmarked : ∀ marker : UInt8, marker = 120 ∨ marker = 98 →
      ¬(text[0]? = some 48 ∧ text[1]? = some marker)) :
    ∃ digits, Digits 10 text digits ∧ value = number 10 digits := by
  cases denotes with
  | decimal spelled nonempty => exact ⟨_, spelled, rfl⟩
  | hex spelled nonempty => exact absurd ⟨rfl, rfl⟩ (unmarked 120 (.inl rfl))
  | binary spelled nonempty => exact absurd ⟨rfl, rfl⟩ (unmarked 98 (.inr rfl))

theorem lxNumber_tells (lx : Lexer) :
    ∃ mid kind, lx.lxNumber lx.pos = mid.push kind lx.pos ∧ Blames lx.pos lx mid ∧ kind ≠ .eof ∧
      (kind = .int → ∀ value, Denotes .int (consumed lx.rest mid.rest) (.int value) →
        Tells lx mid lx.pos value) := by
  rw [Lexer.lxNumber]
  split_ifs with hex binary
  · obtain ⟨mid, same, blames, tells⟩ := marked_tells lx.pos
      (ascii "hex literal needs at least one digit") (.inr ⟨rfl, rfl⟩) hex.1 hex.2
    exact ⟨mid, .int, same, blames, by decide, fun _ => tells⟩
  · obtain ⟨mid, same, blames, tells⟩ := marked_tells lx.pos
      (ascii "binary literal needs at least one digit") (.inl ⟨rfl, rfl⟩) binary.1 binary.2
    exact ⟨mid, .int, same, blames, by decide, fun _ => tells⟩
  · obtain ⟨mid, kind, same, blames, apart, tells⟩ := decimal_tells lx lx.pos
    refine ⟨mid, kind, same, blames, apart, fun int value denotes => ?_⟩
    obtain ⟨digits, spelled, rfl⟩ := denotes.of_unmarked fun marker mark both => by
      obtain ⟨used, split⟩ := blames.suffix
      rw [consumed_eq split.symm] at both
      have here (i : Nat) {b : UInt8} (found : used[i]? = some b) : lx.peek i = some b := by
        rw [Lexer.peek, ← split, List.getElem?_append_left (List.getElem?_eq_some_iff.mp found).1]
        exact found
      rcases mark with rfl | rfl
      · exact hex ⟨here 0 both.1, here 1 both.2⟩
      · exact binary ⟨here 0 both.1, here 1 both.2⟩
    exact tells int digits spelled

end Integers

/-! ## The dispatch -/

section Dispatch

variable {src : List UInt8} {lx : Lexer} {c : UInt8} {more : List UInt8}

theorem wordKind_ne_eof (word : CString) : Lexer.wordKind word ≠ .eof := by
  rw [Lexer.wordKind]
  split_ifs <;> decide

theorem matchOp_ne_eof {n2 : Option UInt8} {kind : Kind}
    (found : Lexer.matchOp c n2 = some kind) : kind ≠ .eof := by
  rintro rfl
  rw [Lexer.matchOp] at found
  split_ifs at found <;> cases found

theorem oneKind_ne_eof {kind : Kind} (found : Lexer.oneKind c = some kind) : kind ≠ .eof := by
  rintro rfl
  rw [Lexer.oneKind] at found
  obtain ⟨before, after, shape, -⟩ := List.lookup_eq_some_iff.mp found
  have every : ∀ pair ∈ [((61 : UInt8), Kind.assign), (43, .plus), (45, .minus), (42, .star),
      (47, .slash), (37, .percent), (60, .lt), (62, .gt), (33, .bang), (63, .question),
      (58, .colon), (44, .comma), (46, .dot), (40, .lparen), (41, .rparen), (123, .lbrace),
      (125, .rbrace), (91, .lbracket), (93, .rbracket)], pair.2 ≠ .eof := by decide
  exact every (c, .eof) (by rw [shape]; exact List.mem_append_right before List.mem_cons_self) rfl

theorem ne_int {kind : Kind} (plain : kind.isLiteral = false) : kind ≠ .int := by
  rintro rfl
  cases plain

/-- A byte that starts no token is faulted with the rest of its character. -/
theorem bumpScalar_skips (along : Along src lx) (whole : Boundary lx.rest)
    (shape : lx.rest = c :: more) (high : 128 ≤ c) (msg : CString) :
    Skips src lx (lx.bumpScalar.err lx.pos msg) := by
  rw [shape] at whole
  rw [UInt8.le_iff_toNat_le] at high
  have large : 128 ≤ c.toNat := high
  rcases whole.cons_cases with ⟨c', small, -⟩ | ⟨c', inner, after, wide, rfl, -⟩
  · omega
  · have bumped : lx.bumpScalar = lx.seek after := by
      simp only [Lexer.bumpScalar, shape, Lexer.advance, wide.len, List.drop_succ_cons,
        List.drop_left]
    have apart : 10 ∉ c :: inner := by
      intro inside
      exact absurd (wide.high 10 inside) (by decide)
    rw [bumped]
    refine .of_fault (c :: inner) along rfl rfl rfl shape (List.cons_ne_nil _ _) ?_
    simp only [apart, or_false]
    rfl

/-- What the dispatch does at a byte: it scans a token, or faults what starts none. -/
theorem scanToken_takes (along : Along src lx) (whole : Boundary lx.rest)
    (shape : lx.rest = c :: more) (newline : c ≠ 10) :
    (∃ mid kind, lx.scanToken c = mid.push kind lx.pos ∧ Blames lx.pos lx mid ∧ kind ≠ .eof ∧
      (kind = .int → ∀ value, Denotes .int (consumed lx.rest mid.rest) (.int value) →
        Tells lx mid lx.pos value)) ∨
    Skips src lx (lx.scanToken c) := by
  have start : Blames lx.pos lx lx := .refl lx
  have plain {kind : Kind} {mid : Lexer} (word : kind ≠ .int) : kind = .int →
      ∀ value, Denotes .int (consumed lx.rest mid.rest) (.int value) →
        Tells lx mid lx.pos value :=
    fun int => absurd int word
  have forward : lx.pos ≤ (lx.advance 1).pos :=
    ((Lexer.Scans.refl lx).advance 1).toReads.pos_le
  rw [Lexer.scanToken]
  split_ifs with ident digit quote tick
  · exact .inl ⟨_, _, rfl, start.seek (List.dropWhile_suffix _), wordKind_ne_eof _,
      plain (ne_int (wordKind_plain _))⟩
  · exact .inl (lxNumber_tells lx)
  · exact .inl ⟨_, .str, rfl, (start.advance 1).trans (stringLoop_blames _ _ forward), by decide,
      plain (by decide)⟩
  · exact .inl ⟨_, .char, rfl, ((start.advance 1).charBody forward).closeQuote _, by decide,
      plain (by decide)⟩
  · rw [Lexer.lxSymbol]
    split
    · rename_i high
      exact .inr (bumpScalar_skips along whole shape high _)
    · split
      · rename_i kind found
        exact .inl ⟨_, kind, rfl, start.advance 2, matchOp_ne_eof found,
          plain (ne_int (matchOp_plain found))⟩
      · split
        · refine .inr (.of_fault [c] along rfl rfl rfl ?_ (List.cons_ne_nil _ _) ?_)
          · rw [shape, Lexer.err, Lexer.advance, Lexer.seek, shape]
            rfl
          · have apart : 10 ∉ [c] := by simpa using newline.symm
            simp only [apart, or_false]
            rfl
        · rename_i kind found
          exact .inl ⟨_, kind, rfl, start.advance 1, oneKind_ne_eof found,
            plain (ne_int (oneKind_plain found))⟩

end Dispatch

/-! ## The run -/

/-- Tokens that are placed up to an offset, with the gap before each of them. -/
inductive Placed (src : List UInt8) (errors : List Located) : List Token → Nat → Prop where
  | nil : Placed src errors [] 0
  | token {tokens : List Token} {start : Nat} {t : Token} (before : Placed src errors tokens start)
      (gap : Filler src errors start t.lo) (flag : FlagRight src start t) (span : t.lo ≤ t.hi)
      (inside : t.hi ≤ src.length) (real : t.kind ≠ .eof → t.lo < t.hi)
      (integer : IntRight src errors t) : Placed src errors (tokens ++ [t]) t.hi

namespace Placed

variable {src : List UInt8} {errors new : List Located} {tokens : List Token} {stop : Nat}

/-- Faults behind the tokens do not change them. -/
theorem grow (placed : Placed src errors tokens stop) (behind : ∀ e ∈ new, stop ≤ e.lo) :
    Placed src (errors ++ new) tokens stop := by
  induction placed with
  | nil => exact .nil
  | @token tokens start t before gap flag span inside real integer ih =>
      have later : ∀ e ∈ new, start ≤ e.lo := fun e listed =>
        (gap.le.trans span).trans (behind e listed)
      refine (ih later).token (gap.mono (List.subset_append_left _ _)) flag span inside real ?_
      intro int value denotes
      obtain ⟨reported, exact'⟩ := integer int value denotes
      refine ⟨?_, exact'⟩
      rw [List.mem_append, ← reported, or_iff_left_iff_imp]
      intro listed
      have past := behind _ listed
      have less := real (by rw [int]; decide)
      exact absurd (show t.hi ≤ t.lo from past) (Nat.not_le_of_lt less)

theorem facts (placed : Placed src errors tokens stop) :
    ∀ t ∈ tokens, t.lo ≤ t.hi ∧ t.hi ≤ src.length ∧ t.hi ≤ stop ∧ (t.kind ≠ .eof → t.lo < t.hi) ∧
      IntRight src errors t := by
  induction placed with
  | nil => exact fun _ listed => nomatch listed
  | @token tokens start t before gap flag span inside real integer ih =>
      intro t' listed
      rcases List.mem_append.mp listed with old | last
      · obtain ⟨span', inside', stop', rest⟩ := ih t' old
        exact ⟨span', inside', stop'.trans (gap.le.trans span), rest⟩
      · obtain rfl := List.mem_singleton.mp last
        exact ⟨span, inside, le_refl _, real, integer⟩

theorem ordered (placed : Placed src errors tokens stop) :
    tokens.Pairwise fun t t' => t.hi ≤ t'.lo := by
  induction placed with
  | nil => exact .nil
  | @token tokens start t before gap flag span inside real integer ih =>
      refine List.pairwise_append.mpr ⟨ih, List.pairwise_singleton _ _, ?_⟩
      intro t' old last listed
      obtain rfl := List.mem_singleton.mp listed
      exact (before.facts t' old).2.2.1.trans gap.le

theorem gapStart_append (tokens : List Token) (t : Token) {k : Nat} (early : k ≤ tokens.length) :
    gapStart (tokens ++ [t]) k = gapStart tokens k := by
  cases k with
  | zero => rfl
  | succ k => rw [gapStart, gapStart, List.getElem?_append_left early]

theorem gapStart_length (placed : Placed src errors tokens stop) :
    gapStart tokens tokens.length = stop := by
  cases placed with
  | nil => rfl
  | @token tokens start t =>
      rw [List.length_append, List.length_singleton, gapStart, List.getElem?_concat_length]
      rfl

theorem gaps (placed : Placed src errors tokens stop) {k : Nat} {t : Token}
    (next : tokens[k]? = some t) :
    Filler src errors (gapStart tokens k) t.lo ∧ FlagRight src (gapStart tokens k) t := by
  induction placed with
  | nil => cases next
  | @token tokens start last before gap flag span inside real integer ih =>
      by_cases early : k < tokens.length
      · rw [gapStart_append tokens last early.le]
        exact ih (by rwa [List.getElem?_append_left early] at next)
      · have here : k = tokens.length := by
          have room := (List.getElem?_eq_some_iff.mp next).1
          rw [List.length_append, List.length_singleton] at room
          omega
        rw [here, List.getElem?_concat_length, Option.some.injEq] at next
        rw [here, gapStart_append tokens last (le_refl _), before.gapStart_length, ← next]
        exact ⟨gap, flag⟩

/-- Every byte is in a token or in the gap before one. -/
theorem covers (placed : Placed src errors tokens stop) {i : Nat} (inside : i < stop) :
    (∃ t ∈ tokens, t.lo ≤ i ∧ i < t.hi) ∨
    ∃ (k : Nat) (t : Token), tokens[k]? = some t ∧ gapStart tokens k ≤ i ∧ i < t.lo := by
  induction placed with
  | nil => exact absurd inside (Nat.not_lt_zero i)
  | @token tokens start last before gap flag span inside' real integer ih =>
      by_cases early : i < start
      · rcases ih early with ⟨t, listed, within⟩ | ⟨k, t, next, within⟩
        · exact .inl ⟨t, List.mem_append_left _ listed, within⟩
        · have room := (List.getElem?_eq_some_iff.mp next).1
          refine .inr ⟨k, t, ?_, ?_⟩
          · rw [List.getElem?_append_left room]
            exact next
          · rw [gapStart_append tokens last room.le]
            exact within
      · by_cases token : last.lo ≤ i
        · exact .inl ⟨last, List.mem_append_right _ List.mem_cons_self, token, inside⟩
        · refine .inr ⟨tokens.length, last, List.getElem?_concat_length, ?_, Nat.lt_of_not_le token⟩
          rw [gapStart_append tokens last (le_refl _), before.gapStart_length]
          exact Nat.le_of_not_lt early

end Placed

/-- A lexer between two tokens. -/
structure Between (src : List UInt8) (start : Nat) (lx : Lexer) : Prop extends Along src lx where
  boundary : Boundary lx.rest
  words : ∀ t ∈ lx.tokens, t.kind ≠ .eof
  placed : Placed src lx.errors lx.tokens start
  gap : Filler src lx.errors start lx.pos
  flag : lx.pendingNl = true ↔ 10 ∈ slice src start lx.pos
  faults : ∀ e ∈ lx.errors, e.hi ≤ lx.pos

namespace Between

variable {src : List UInt8} {start : Nat} {lx mid after : Lexer}

theorem first (whole : Boundary src) : Between src 0 (lxNew src) where
  n := rfl
  suffix := List.suffix_rfl
  boundary := whole
  words := fun _ listed => nomatch listed
  placed := .nil
  gap := by
    have zero : (lxNew src).pos = 0 := Nat.sub_self _
    rw [zero]
    exact .nil
  flag := by
    have zero : (lxNew src).pos = 0 := Nat.sub_self _
    rw [zero, mem_slice]
    simp [lxNew]
  faults := fun _ listed => nomatch listed

theorem skips (between : Between src start lx) (skips : Skips src lx after)
    (boundary : Boundary after.rest) : Between src start after where
  toAlong := between.toAlong.reads skips.toReads
  boundary := boundary
  words := skips.tokens ▸ between.words
  placed := by
    obtain ⟨new, grown, within⟩ := skips.faults
    rw [skips.tokens, grown]
    exact between.placed.grow fun e listed => between.gap.le.trans (within e listed).1
  gap := (between.gap.mono skips.errors.subset).trans skips.fills
  flag := by
    rw [skips.flag, between.flag, ← between.slice_pos skips.toReads, ← List.mem_append,
      ← slice_append between.gap.le skips.toReads.pos_le]
  faults := by
    obtain ⟨new, grown, within⟩ := skips.faults
    intro e listed
    rw [grown] at listed
    rcases List.mem_append.mp listed with old | later
    · exact (between.faults e old).trans skips.toReads.pos_le
    · exact (within e later).2

/-- The flag a token carries is right. -/
theorem flagRight (between : Between src start lx) {kind : Kind} {hi : Nat} :
    FlagRight src start ⟨kind, lx.pos, hi, lx.pendingNl⟩ := by
  rw [FlagRight, between.flag, mem_slice]

theorem push {kind : Kind} (between : Between src start lx) (blames : Blames lx.pos lx mid)
    (less : mid.rest.length < lx.rest.length) (word : kind ≠ .eof)
    (tells : kind = .int → ∀ value, Denotes .int (consumed lx.rest mid.rest) (.int value) →
      Tells lx mid lx.pos value) (boundary : Boundary mid.rest) :
    Between src mid.pos (mid.push kind lx.pos) := by
  have along := between.toAlong.reads blames.toReads
  have forward := between.pos_lt blames.toReads less
  obtain ⟨new, grown, within⟩ := blames.faults
  have old : Placed src mid.errors mid.tokens start := by
    rw [grown, blames.tokens]
    exact between.placed.grow fun e listed => between.gap.le.trans (within e listed).1
  refine ⟨⟨along.n, along.suffix⟩, boundary, ?_, ?_, .nil, ?_, ?_⟩
  · intro t listed
    rcases List.mem_append.mp listed with earlier | last
    · exact between.words t (blames.tokens ▸ earlier)
    · obtain rfl := List.mem_singleton.mp last
      exact word
  · refine old.token (between.gap.mono blames.errors.subset) ?_ forward.le along.pos_le
      (fun _ => forward) ?_
    · rw [blames.pendingNl]
      exact between.flagRight
    · intro int value denotes
      have text : Token.text ⟨kind, lx.pos, mid.pos, mid.pendingNl⟩ src =
          consumed lx.rest mid.rest := between.slice_pos blames.toReads
      refine ⟨?_, fun fits => intValue_eq denotes fits⟩
      rw [text] at denotes
      rcases tells int value denotes with ⟨quiet, fits⟩ | ⟨reported, past⟩
      · refine iff_of_false (fun listed => ?_) (Nat.not_lt_of_le fits)
        rw [quiet] at listed
        exact absurd (between.faults _ listed) (Nat.not_le_of_lt forward)
      · refine iff_of_true ?_ past
        rw [reported]
        exact List.mem_append_right _ List.mem_cons_self
  · have empty : 10 ∉ slice src mid.pos mid.pos := by
      rw [mem_slice]
      rintro ⟨i, low, high, -⟩
      omega
    exact iff_of_false (by simp [Lexer.push]) empty
  · intro e listed
    rw [show (mid.push kind lx.pos).errors = lx.errors ++ new from grown] at listed
    rcases List.mem_append.mp listed with earlier | later
    · exact (between.faults e earlier).trans forward.le
    · exact (within e later).2

theorem turn (between : Between src start lx) (turned : lx.lexTurn = .again after) :
    ∃ start', Between src start' after := by
  rw [Lexer.lexTurn] at turned
  split at turned
  · cases turned
  · rename_i c more shape
    cases turned
    have skipped := between.skips (skipTrivia_skips between.toAlong) between.boundary.skipTrivia
    have boundary := skipped.boundary.scanToken shape
    have newline : c ≠ 10 := by
      rintro rfl
      exact lx.skipTrivia_stops (by rw [shape]; rfl)
    have less : (lx.skipTrivia.scanToken c).rest.length < lx.skipTrivia.rest.length := by
      have scanned := Lexer.scanToken_scanned shape
      generalize lx.skipTrivia.scanToken c = next at scanned
      cases scanned with
      | token kind scans less => exact less
      | fault msg scans less => exact less
    rcases scanToken_takes skipped.toAlong skipped.boundary shape newline with
      ⟨mid, kind, same, blames, word, tells⟩ | skips
    · rw [same] at boundary less ⊢
      exact ⟨mid.pos, skipped.push blames less word tells boundary⟩
    · exact ⟨start, skipped.skips skips boundary⟩

end Between

/-- The tokens of a source are placed to its end, and the last one ends it. -/
theorem lex_placed {src : List UInt8} (whole : Boundary src) :
    ∃ front nl, (lex src).tokens = front ++ [⟨.eof, src.length, src.length, nl⟩] ∧
      (∀ t ∈ front, t.kind ≠ .eof) ∧
      Placed src (lex src).errors (lex src).tokens src.length := by
  refine Lexer.lexLoop.run_invariant (fun lx => ∃ start, Between src start lx)
    (fun out => ∃ front nl, out.tokens = front ++ [⟨.eof, src.length, src.length, nl⟩] ∧
      (∀ t ∈ front, t.kind ≠ .eof) ∧ Placed src out.errors out.tokens src.length)
    ?_ ?_ ⟨0, Between.first whole⟩
  · rintro state next ⟨start, between⟩ turned
    exact between.turn turned
  · rintro state result ⟨start, between⟩ turned
    change state.lexTurn = .stop result at turned
    rw [Lexer.lexTurn] at turned
    split at turned
    · rename_i shape
      cases turned
      have ended := between.skips (skipTrivia_skips between.toAlong) between.boundary.skipTrivia
      have pos : state.skipTrivia.pos = src.length := by
        rw [Lexer.pos, shape, ended.n]
        rfl
      have last := ended.placed.token (t := ⟨.eof, state.skipTrivia.pos, state.skipTrivia.pos,
        state.skipTrivia.pendingNl⟩) ended.gap ended.flagRight (le_refl _) ended.pos_le
        (fun other => absurd rfl other) (fun int => by cases int)
      refine ⟨state.skipTrivia.tokens, state.skipTrivia.pendingNl, ?_, ended.words, ?_⟩
      · rw [Lexer.push, pos]
      · rw [← pos]
        exact last
    · cases turned

/-- Lexing a source accounts for all of it. -/
theorem lex_partition (chars : List Char) :
    Partition (encode chars) (lex (encode chars)).tokens (lex (encode chars)).errors := by
  obtain ⟨front, nl, shape, words, placed⟩ := lex_placed ⟨chars, rfl⟩
  constructor
  · refine ⟨front, nl, shape, fun t listed => ⟨words t listed, ?_⟩⟩
    have member : t ∈ (lex (encode chars)).tokens := by
      rw [shape]
      exact List.mem_append_left _ listed
    exact (placed.facts t member).2.2.2.1 (words t listed)
  · exact fun t listed => ⟨(placed.facts t listed).1, (placed.facts t listed).2.1⟩
  · exact placed.ordered
  · exact fun k t next => (placed.gaps next).1
  · intro i inside apart
    rcases placed.covers inside with ⟨t, listed, within⟩ | ⟨k, t, next, low, high⟩
    · exact absurd within (apart t listed)
    · cases (placed.gaps next).1.accounts low high with
      | blank here blank => exact .whitespace here blank
      | comment before comment ahead low high => exact .comment next before comment ahead low high
      | fault reported low high => exact .faulted reported low high
  · exact fun k t next => (placed.gaps next).2
  · exact fun t listed => (placed.facts t listed).2.2.2.2

end Geas.Compiler.Lexing
