import Geas.Lib.Writes
import Geas.Runtime.Printf
import Geas.Runtime.Sign

/-!
# Render and dump

The two printers of the runtime that fill a buffer of the caller.  Each runs over its input
twice, to size the text and to write it, and promises one size protocol: the caller is told
the full size, and the text is written when it fits and not otherwise.

The text of a value is its debug spelling, that of a table its lines.  The renderer goes
through a sink that counts every byte and stores those that fit, and is known by the pieces it
puts: `Prints` says that they are the same pieces for every sink and spell one text.
-/

namespace Geas.Runtime

open Geas.Abi
open Geas.Lib.Writes

/-! ## The debug spelling -/

/-- `GEAS_RENDER_DEPTH`. -/
def geasRenderDepth : Nat := 8

/-- A byte in a quoted string. -/
def spelledByte (b : UInt8) : CString :=
  if b = 34 then ascii "\\\""
  else if b = 92 then ascii "\\\\"
  else if b < 0x20 ∨ b = 0x7f then ascii "\\x" ++ fmt02x b
  else [b]

/-- Texts with a comma and a blank between them. -/
def joined : List CString → CString
  | [] => []
  | text :: rest => text ++ rest.flatMap fun next => ascii ", " ++ next

mutual
/-- The debug spelling of a value at a depth. -/
def spelling (v : GeasValue) (depth : Nat) : CString :=
  if depth > geasRenderDepth then ascii "..."
  else match v with
    | .unit _ => ascii "()"
    | .int _ i => fmtLld i
    | .uint _ u => fmtLlu u
    | .float _ bits => fmtG bits
    | .bool _ b => ascii (if b ≠ 0 then "true" else "false")
    | .byte _ b => decimal b.toUInt32
    | .char _ ch => ascii "U+" ++ fmt04X ch
    | .string _ bytes => ascii "\"" ++ (bytes.getD []).flatMap spelledByte ++ ascii "\""
    | .list _ _ (some data) => ascii "[" ++ joined (spellings data (depth + 1)) ++ ascii "]"
    | .tuple _ (some data) => ascii "(" ++ joined (spellings data (depth + 1)) ++ ascii ")"
    | .record _ (some data) =>
        ascii "\x7b" ++ joined (spellings data (depth + 1)) ++ ascii "\x7d"
    | .sum tag (some data) =>
        ascii "#" ++ decimal tag ++
          (if data.isEmpty then [] else ascii "(" ++ joined (spellings data (depth + 1)) ++ ascii ")")
    | .option tag box =>
        if tag = 0 then ascii "None"
        else ascii "Some" ++ ascii "(" ++ boxSpelling box (depth + 1) ++ ascii ")"
    | .result tag box =>
        ascii (if tag = 0 then "Ok" else "Err") ++ ascii "(" ++ boxSpelling box (depth + 1) ++
          ascii ")"
    | .map _ _ (some data) =>
        ascii "\x7b" ++ joined (pairSpellings data (depth + 1)) ++ ascii "\x7d"
    | .pledgeRef _ => ascii "<pledge>"
    | .inst _ _ => ascii "<instance>"
    | .unknown _ _ _ => ascii "<?>"
    | _ => []

def spellings (data : List GeasValue) (depth : Nat) : List CString :=
  match data with
  | [] => []
  | v :: rest => spelling v depth :: spellings rest depth

/-- The pairs of a map; a slot without a partner is left out. -/
def pairSpellings (data : List GeasValue) (depth : Nat) : List CString :=
  match data with
  | key :: value :: rest =>
      (spelling key depth ++ ascii ": " ++ spelling value depth) :: pairSpellings rest depth
  | _ => []

def boxSpelling (box : Option GeasValue) (depth : Nat) : CString :=
  match box with
  | some v => spelling v depth
  | none => ascii "?"
end

/-! ## The sink -/

/-- `RenderSink`: whether there is a buffer, its capacity, the count, and what was stored. -/
structure RenderSink where
  buf : Bool
  cap : UInt64
  pos : UInt64
  stored : List (Nat × UInt8)

/-- `sink_put`. -/
def sinkPut (s : RenderSink) (bytes : CString) : RenderSink :=
  { s with
    stored :=
      if s.buf ∧ s.pos < s.cap then
        s.stored ++ block s.pos.toNat (bytes.take (s.cap - s.pos).toNat)
      else s.stored
    pos := s.pos + UInt64.ofNat bytes.length }

/-- `sink_str`. -/
def sinkStr (s : RenderSink) (z : String) : RenderSink := sinkPut s (ascii z)

/-- `sink_fmt` with the text its format gives.  The 64 byte buffer holds no more than 63 of
it, and beyond that the copy reads behind the buffer: `none`. -/
def sinkFmt (s : RenderSink) (text : CString) : Option RenderSink :=
  if 64 ≤ text.length then none
  else some (if 0 < text.length then sinkPut s text else s)

/-! ## The renderer

`none` is a read through a NULL pointer, or behind the formatting buffer. -/

/-- One turn of the loop of `render_string`. -/
def renderByte (s : RenderSink) (b : UInt8) : Option RenderSink :=
  if b = 34 then some (sinkPut s (ascii "\\\""))
  else if b = 92 then some (sinkPut s (ascii "\\\\"))
  else if b < 0x20 ∨ b = 0x7f then sinkFmt s (ascii "\\x" ++ fmt02x b)
  else some (sinkPut s [b])

/-- `render_string`. -/
def renderString (s : RenderSink) (bytes : Option (List UInt8)) : Option RenderSink := do
  let bytes ← bytes
  let s ← bytes.foldlM renderByte (sinkPut s (ascii "\""))
  some (sinkPut s (ascii "\""))

/-- Whether the list arm has a length: a NULL pointer stands under one. -/
def hasLength (data : Option (List GeasValue)) : Bool :=
  match data with
  | some [] => false
  | _ => true

mutual
/-- `render_value`. -/
def renderValue (s : RenderSink) (v : GeasValue) (depth : Nat) : Option RenderSink :=
  if depth > geasRenderDepth then some (sinkStr s "...")
  else match v with
    | .unit _ => some (sinkStr s "()")
    | .int _ i => sinkFmt s (fmtLld i)
    | .uint _ u => sinkFmt s (fmtLlu u)
    | .float _ bits => sinkFmt s (fmtG bits)
    | .bool _ b => some (sinkStr s (if b ≠ 0 then "true" else "false"))
    | .byte _ b => sinkFmt s (decimal b.toUInt32)
    | .char _ ch => sinkFmt s (ascii "U+" ++ fmt04X ch)
    | .string _ bytes => renderString s bytes
    | .list _ _ data => renderElems s data depth "[" "]"
    | .tuple _ data => renderElems s data depth "(" ")"
    | .record _ data => renderElems s data depth "\x7b" "\x7d"
    | .sum tag data => do
        let s ← sinkFmt s (ascii "#" ++ decimal tag)
        if hasLength data then renderElems s data depth "(" ")" else some s
    | .option tag box =>
        if tag = 0 then some (sinkStr s "None") else renderBox s box depth "Some"
    | .result tag box => renderBox s box depth (if tag = 0 then "Ok" else "Err")
    | .map _ _ data => renderMap s data depth
    | .pledgeRef _ => some (sinkStr s "<pledge>")
    | .inst _ _ => some (sinkStr s "<instance>")
    | .unknown _ _ _ => some (sinkStr s "<?>")

/-- `render_elems`. -/
def renderElems (s : RenderSink) (data : Option (List GeasValue)) (depth : Nat)
    (opening closing : String) : Option RenderSink :=
  match data with
  | none => none
  | some xs => do
      let s ← renderEach (sinkStr s opening) xs 0 (depth + 1)
      some (sinkStr s closing)

/-- The loop of `render_elems` from an index on. -/
def renderEach (s : RenderSink) (xs : List GeasValue) (i depth : Nat) : Option RenderSink :=
  match xs with
  | [] => some s
  | x :: rest => do
      let s ← renderValue (if i ≠ 0 then sinkStr s ", " else s) x depth
      renderEach s rest (i + 1) depth

/-- `render_map`. -/
def renderMap (s : RenderSink) (data : Option (List GeasValue)) (depth : Nat) :
    Option RenderSink :=
  match data with
  | none => none
  | some xs => do
      let s ← renderPairs (sinkPut s (ascii "\x7b")) xs 0 (depth + 1)
      some (sinkPut s (ascii "\x7d"))

/-- The loop of `render_map` from an index on. -/
def renderPairs (s : RenderSink) (xs : List GeasValue) (i depth : Nat) : Option RenderSink :=
  match xs with
  | key :: value :: rest => do
      let s ← renderValue (if i ≠ 0 then sinkStr s ", " else s) key depth
      let s ← renderValue (sinkStr s ": ") value depth
      renderPairs s rest (i + 2) depth
  | _ => some s

/-- `render_box`. -/
def renderBox (s : RenderSink) (box : Option GeasValue) (depth : Nat) (name : String) :
    Option RenderSink := do
  let s := sinkPut (sinkStr s name) (ascii "(")
  let s ← match box with
    | some v => renderValue s v (depth + 1)
    | none => some (sinkPut s (ascii "?"))
  some (sinkPut s (ascii ")"))
end

/-! ## The entry points -/

/-- What a caller gets back: the status, the size stored for it, and what was stored in its
buffer. -/
structure Printed where
  status : GeasStatus
  need : Option UInt64
  stored : List (Nat × UInt8)

/-- `geas_value_render`.  `none` also stands for the store of the terminator through a NULL
buffer. -/
def geasValueRender (v : Option GeasValue) (buf : Bool) (cap : UInt64) (need : Bool) :
    Option Printed :=
  match v, need with
  | some v, true => do
      let cap := if buf then cap else 0
      let sizePass ← renderValue ⟨false, 0, 0, []⟩ v 0
      let need := sizePass.pos + 1
      if cap < need then some ⟨.errOom, some need, []⟩
      else
        let writePass ← renderValue ⟨buf, cap, 0, []⟩ v 0
        if buf then some ⟨.ok, some need, writePass.stored ++ [(writePass.pos.toNat, 0)]⟩
        else none
  | _, _ => some ⟨.errType, none, []⟩

/-- `INT_MAX`. -/
def intMax : Nat := 2147483647

/-- `snprintf` of a text to a block of a size: the count, which an `int` must hold, and the
stores.  A block that is not empty gets its terminator. -/
def snprintf (text : CString) (off size : Nat) : Option (Nat × List (Nat × UInt8)) :=
  if intMax < text.length then none
  else some (text.length, if size = 0 then [] else block off (text.take (size - 1) ++ [0]))

/-- The text of `iname_line`. -/
def inameText (e : GeasInameEntry) : CString :=
  e.mangled ++ ascii " " ++ ascii (if e.kind = .contract then "contract" else "pledge") ++
    ascii " " ++ hex16 e.shapeHash ++ ascii " v" ++ decimal e.version ++ ascii "\n"

/-- `iname_line`. -/
def inameLine (e : GeasInameEntry) (off size : Nat) : Option (Nat × List (Nat × UInt8)) :=
  snprintf (inameText e) off size

/-- The sizing loop of `geas_iname_dump`. -/
def dumpTotal (inames : List GeasInameEntry) (total : UInt64) : Option UInt64 :=
  match inames with
  | [] => some total
  | e :: rest => do
      let n ← inameLine e 0 0
      dumpTotal rest (total + UInt64.ofNat n.1)

/-- The writing loop of `geas_iname_dump`, with the store of the terminator behind it. -/
def dumpLines (cap : UInt64) (inames : List GeasInameEntry) (off : UInt64)
    (stored : List (Nat × UInt8)) : GeasStatus × List (Nat × UInt8) :=
  match inames with
  | [] => (.ok, stored ++ [(off.toNat, 0)])
  | e :: rest =>
      match inameLine e off.toNat (cap - off).toNat with
      | none => (.errOom, stored)
      | some (n, stores) =>
          if UInt64.ofNat n ≥ cap - off then (.errOom, stored ++ stores)
          else dumpLines cap rest (off + UInt64.ofNat n) (stored ++ stores)

/-- `geas_iname_dump`. -/
def geasInameDump (inames : Option (List GeasInameEntry)) (buf : Bool) (cap : UInt64)
    (need : Bool) : Printed :=
  match inames, need with
  | some inames, true =>
      let cap := if buf then cap else 0
      match dumpTotal inames 1 with
      | none => ⟨.errOom, none, []⟩
      | some total =>
          if cap < total then ⟨.errOom, some total, []⟩
          else
            let (status, stored) := dumpLines cap inames 0 []
            ⟨status, some total, stored⟩
  | _, _ => ⟨.errType, none, []⟩

/-! ## What a printer puts

The pieces do not depend on the sink, so the pass that sizes and the pass that writes put the
same ones. -/

/-- A printer puts pieces that spell a text, the same into every sink. -/
def Prints (print : RenderSink → Option RenderSink) (text : CString) : Prop :=
  ∃ pieces : List CString, pieces.flatten = text ∧
    ∀ s, print s = some (pieces.foldl sinkPut s)

namespace Prints

variable {print next : RenderSink → Option RenderSink} {text text' : CString}

theorem nothing : Prints some [] := ⟨[], rfl, fun _ => rfl⟩

theorem put (bytes : CString) : Prints (fun s => some (sinkPut s bytes)) bytes :=
  ⟨[bytes], List.append_nil bytes, fun _ => rfl⟩

theorem str (z : String) : Prints (fun s => some (sinkStr s z)) (ascii z) := put (ascii z)

/-- One printer after another. -/
theorem bind (first : Prints print text) (second : Prints next text') :
    Prints (fun s => print s >>= next) (text ++ text') := by
  obtain ⟨pieces, rfl, puts⟩ := first
  obtain ⟨pieces', rfl, puts'⟩ := second
  refine ⟨pieces ++ pieces', List.flatten_append, fun s => ?_⟩
  show print s >>= next = _
  rw [puts, Option.bind_eq_bind, Option.bind_some, puts', List.foldl_append]

/-- A formatted number that fits the buffer. -/
theorem fmt (text : CString) (short : text.length < 64) :
    Prints (fun s => sinkFmt s text) text := by
  refine ⟨[text], List.append_nil text, fun s => ?_⟩
  show sinkFmt s text = _
  rw [sinkFmt, if_neg (by omega)]
  split
  · rfl
  · have empty : text = [] := List.length_eq_zero_iff.mp (by omega)
    subst empty
    simp [sinkPut, block]

/-- A text put before a printer runs. -/
theorem behind (bytes : CString) (second : Prints next text') :
    Prints (fun s => next (sinkPut s bytes)) (bytes ++ text') :=
  (put bytes).bind second

theorem behindStr (z : String) (second : Prints next text') :
    Prints (fun s => next (sinkStr s z)) (ascii z ++ text') :=
  second.behind (ascii z)

end Prints

theorem renderByte_prints (b : UInt8) : Prints (fun s => renderByte s b) (spelledByte b) := by
  by_cases quote : b = 34
  · simpa only [renderByte, spelledByte, if_pos quote] using Prints.put _
  by_cases backslash : b = 92
  · simpa only [renderByte, spelledByte, if_neg quote, if_pos backslash] using Prints.put _
  by_cases control : b < 0x20 ∨ b = 0x7f
  · have width := fmt02x_length b
    have mark : (ascii "\\x").length = 2 := rfl
    simpa only [renderByte, spelledByte, if_neg quote, if_neg backslash, if_pos control] using
      Prints.fmt (ascii "\\x" ++ fmt02x b) (by rw [List.length_append]; omega)
  · simpa only [renderByte, spelledByte, if_neg quote, if_neg backslash, if_neg control] using
      Prints.put [b]

theorem renderBytes_prints (bytes : List UInt8) :
    Prints (fun s => bytes.foldlM renderByte s) (bytes.flatMap spelledByte) := by
  induction bytes with
  | nil => exact .nothing
  | cons b bytes ih =>
      simpa only [List.foldlM_cons, List.flatMap_cons] using (renderByte_prints b).bind ih

theorem renderString_prints (bytes : List UInt8) :
    Prints (fun s => renderString s (some bytes))
      (ascii "\"" ++ (bytes.flatMap spelledByte ++ ascii "\"")) :=
  ((renderBytes_prints bytes).bind (.put (ascii "\""))).behind (ascii "\"")

/-- Texts from an index of a sequence on: all but the first have a comma before them. -/
def continued (i : Nat) (texts : List CString) : CString :=
  if i = 0 then joined texts else texts.flatMap fun next => ascii ", " ++ next

theorem continued_zero (texts : List CString) : continued 0 texts = joined texts := rfl

theorem continued_nil (i : Nat) : continued i [] = [] := by
  by_cases first : i = 0
  · simp [continued, joined, first]
  · simp [continued, first]

theorem continued_cons (i : Nat) (text : CString) (rest : List CString) {k : Nat}
    (later : k ≠ 0) :
    continued i (text :: rest) =
      (if i ≠ 0 then ascii ", " else []) ++ (text ++ continued k rest) := by
  by_cases first : i = 0
  · simp [continued, joined, first, later]
  · simp [continued, first, later]

/-- The comma before an element. -/
theorem Prints.comma {next : RenderSink → Option RenderSink} {text : CString} (i : Nat)
    (element : Prints next text) :
    Prints (fun s => next (if i ≠ 0 then sinkStr s ", " else s))
      ((if i ≠ 0 then ascii ", " else []) ++ text) := by
  by_cases first : i = 0
  · simpa [first] using element
  · simpa [first, sinkStr] using element.behind (ascii ", ")

/-- What a box holds can be read. -/
def BoxReadable : Option GeasValue → Prop
  | some v => Readable v
  | none => True

mutual
theorem renderValue_prints (v : GeasValue) (readable : Readable v) (depth : Nat) :
    Prints (fun s => renderValue s v depth) (spelling v depth) := by
  by_cases deep : depth > geasRenderDepth
  · simpa only [renderValue.eq_def, spelling.eq_def, if_pos deep] using Prints.str "..."
  cases v with
  | unit => simpa only [renderValue, spelling, if_neg deep] using Prints.str "()"
  | int tag i =>
      simpa only [renderValue, spelling, if_neg deep] using
        Prints.fmt _ ((fmtLld_length i).trans_lt (by decide))
  | uint tag u =>
      simpa only [renderValue, spelling, if_neg deep] using
        Prints.fmt _ ((fmtLlu_length u).trans_lt (by decide))
  | float tag bits =>
      simpa only [renderValue, spelling, if_neg deep] using
        Prints.fmt _ ((fmtG_length bits).trans_lt (by decide))
  | bool tag b => simpa only [renderValue, spelling, if_neg deep] using Prints.str _
  | byte tag b =>
      simpa only [renderValue, spelling, if_neg deep] using
        Prints.fmt _ ((decimal_length b.toUInt32).trans_lt (by decide))
  | char tag ch =>
      have width := fmt04X_length ch
      have mark : (ascii "U+").length = 2 := rfl
      simpa only [renderValue, spelling, if_neg deep] using
        Prints.fmt (ascii "U+" ++ fmt04X ch) (by rw [List.length_append]; omega)
  | string tag bytes =>
      cases bytes with
      | none => cases readable
      | some bytes =>
          simpa only [renderValue, spelling, if_neg deep, Option.getD_some, List.append_assoc] using
            renderString_prints bytes
  | list tag elemTy data =>
      cases data with
      | none => cases readable
      | some data =>
          simpa only [renderValue, spelling, if_neg deep, List.append_assoc] using
            renderElems_prints data readable depth "[" "]"
  | tuple tag data =>
      cases data with
      | none => cases readable
      | some data =>
          simpa only [renderValue, spelling, if_neg deep, List.append_assoc] using
            renderElems_prints data readable depth "(" ")"
  | record tag data =>
      cases data with
      | none => cases readable
      | some data =>
          simpa only [renderValue, spelling, if_neg deep, List.append_assoc] using
            renderElems_prints data readable depth "\x7b" "\x7d"
  | sum tag data =>
      cases data with
      | none => cases readable
      | some data =>
          have width := decimal_length tag
          have mark : (ascii "#").length = 1 := rfl
          have head : Prints (fun s => sinkFmt s (ascii "#" ++ decimal tag))
              (ascii "#" ++ decimal tag) :=
            Prints.fmt _ (by rw [List.length_append]; omega)
          have payload := renderElems_prints data readable depth "(" ")"
          simp only [renderValue, spelling, if_neg deep, List.append_assoc]
          cases data with
          | nil => exact head.bind .nothing
          | cons x rest => exact head.bind payload
  | option tag box =>
      by_cases empty : tag = 0
      · simpa only [renderValue, spelling, if_neg deep, if_pos empty] using Prints.str "None"
      · have inside : BoxReadable box := by
          cases box with
          | none => trivial
          | some content => exact readable
        simpa only [renderValue, spelling, if_neg deep, if_neg empty, List.append_assoc] using
          renderBox_prints inside depth "Some"
  | result tag box =>
      have inside : BoxReadable box := by
        cases box with
        | none => trivial
        | some content => exact readable
      simpa only [renderValue, spelling, if_neg deep, List.append_assoc] using
        renderBox_prints inside depth (if tag = 0 then "Ok" else "Err")
  | map tag elemTy data =>
      cases data with
      | none => cases readable
      | some data =>
          simpa only [renderValue, spelling, if_neg deep, List.append_assoc] using
            renderMap_prints data readable depth
  | pledgeRef => simpa only [renderValue, spelling, if_neg deep] using Prints.str "<pledge>"
  | inst => simpa only [renderValue, spelling, if_neg deep] using Prints.str "<instance>"
  | unknown => simpa only [renderValue, spelling, if_neg deep] using Prints.str "<?>"

theorem renderElems_prints (data : List GeasValue) (readable : AllReadable data) (depth : Nat)
    (opening closing : String) :
    Prints (fun s => renderElems s (some data) depth opening closing)
      (ascii opening ++ (joined (spellings data (depth + 1)) ++ ascii closing)) := by
  simpa only [renderElems, continued_zero] using
    ((renderEach_prints readable 0 (depth + 1)).bind (.str closing)).behindStr opening

theorem renderEach_prints {xs : List GeasValue} (readable : AllReadable xs) (i depth : Nat) :
    Prints (fun s => renderEach s xs i depth) (continued i (spellings xs depth)) := by
  cases xs with
  | nil => simpa only [renderEach, spellings, continued_nil] using Prints.nothing
  | cons x rest =>
      rw [spellings, continued_cons i _ _ (Nat.succ_ne_zero i), ← List.append_assoc]
      simpa only [renderEach] using
        ((renderValue_prints _ readable.1 depth).comma i).bind
          (renderEach_prints readable.2 (i + 1) depth)

theorem renderMap_prints (data : List GeasValue) (readable : AllReadable data) (depth : Nat) :
    Prints (fun s => renderMap s (some data) depth)
      (ascii "\x7b" ++ (joined (pairSpellings data (depth + 1)) ++ ascii "\x7d")) := by
  simpa only [renderMap, continued_zero] using
    ((renderPairs_prints readable 0 (depth + 1)).bind (.put (ascii "\x7d"))).behind
      (ascii "\x7b")

theorem renderPairs_prints {xs : List GeasValue} (readable : AllReadable xs) (i depth : Nat) :
    Prints (fun s => renderPairs s xs i depth) (continued i (pairSpellings xs depth)) := by
  cases xs with
  | nil => simpa only [renderPairs, pairSpellings, continued_nil] using Prints.nothing
  | cons key rest =>
      cases rest with
      | nil => simpa only [renderPairs, pairSpellings, continued_nil] using Prints.nothing
      | cons value rest =>
          rw [pairSpellings, continued_cons i _ _ (show i + 2 ≠ 0 by omega)]
          have pair := ((renderValue_prints _ readable.1 depth).comma i).bind
            (((renderValue_prints _ readable.2.1 depth).behindStr ": ").bind
              (renderPairs_prints readable.2.2 (i + 2) depth))
          simpa only [renderPairs, List.append_assoc] using pair

theorem renderBox_prints {box : Option GeasValue} (readable : BoxReadable box) (depth : Nat)
    (name : String) :
    Prints (fun s => renderBox s box depth name)
      (ascii name ++ (ascii "(" ++ (boxSpelling box (depth + 1) ++ ascii ")"))) := by
  cases box with
  | none =>
      simpa only [renderBox, boxSpelling] using
        (((Prints.put (ascii "?")).bind (.put (ascii ")"))).behind (ascii "(")).behindStr name
  | some v =>
      simpa only [renderBox, boxSpelling] using
        (((renderValue_prints v readable (depth + 1)).bind (.put (ascii ")"))).behind
          (ascii "(")).behindStr name
end

/-! ## What a sink holds -/

theorem toNat_ofNat_small {n : Nat} (small : n < 2 ^ 64) : (UInt64.ofNat n).toNat = n :=
  UInt64.toNat_ofNat_of_lt' small

theorem puts_pos (pieces : List CString) (s : RenderSink) :
    (pieces.foldl sinkPut s).pos = s.pos + UInt64.ofNat pieces.flatten.length := by
  induction pieces generalizing s with
  | nil => simp
  | cons piece pieces ih =>
      rw [List.foldl_cons, ih, List.flatten_cons, List.length_append, UInt64.ofNat_add,
        ← UInt64.add_assoc]
      rfl

/-- A sink whose buffer had room for all it counted. -/
structure Holds (s : RenderSink) (cap : UInt64) (text : CString) : Prop where
  buf : s.buf = true
  cap : s.cap = cap
  counted : s.pos.toNat = text.length
  filled : Filled s.stored text

theorem Holds.put {s : RenderSink} {cap : UInt64} {text : CString} (holds : Holds s cap text)
    (bytes : CString) (room : text.length + bytes.length < cap.toNat) :
    Holds (sinkPut s bytes) cap (text ++ bytes) := by
  have small := cap.toNat_lt
  have counted := holds.counted
  have roomy : s.buf = true ∧ s.pos < s.cap :=
    ⟨holds.buf, by rw [holds.cap, UInt64.lt_iff_toNat_lt]; omega⟩
  have whole : bytes.take (s.cap - s.pos).toNat = bytes := by
    apply List.take_of_length_le
    rw [UInt64.toNat_sub_of_le _ _ (UInt64.le_of_lt roomy.2), holds.cap]
    omega
  refine ⟨holds.buf, holds.cap, ?_, ?_⟩
  · rw [sinkPut, UInt64.toNat_add, toNat_ofNat_small (by omega), counted,
      List.length_append]
    exact Nat.mod_eq_of_lt (by omega)
  · rw [sinkPut, if_pos roomy, whole, counted]
    exact holds.filled.extend bytes

theorem Holds.puts {s : RenderSink} {cap : UInt64} {text : CString} (holds : Holds s cap text)
    (pieces : List CString) (room : text.length + pieces.flatten.length < cap.toNat) :
    Holds (pieces.foldl sinkPut s) cap (text ++ pieces.flatten) := by
  induction pieces generalizing s text with
  | nil => simpa using holds
  | cons piece pieces ih =>
      rw [List.flatten_cons, List.length_append] at room
      rw [List.foldl_cons, List.flatten_cons, ← List.append_assoc]
      refine ih (holds.put piece (by omega)) ?_
      rw [List.length_append]
      omega

/-! ## The size protocol -/

/-- What a caller is promised of a text for its buffer: the full size in any case, with the
terminator in it; nothing stored in a buffer that is missing or too small; and in any other
the text and the terminator and not a byte beyond. -/
structure SizeProtocol (text : CString) (buf : Bool) (cap : UInt64) (answer : Printed) :
    Prop where
  sized : answer.need.map UInt64.toNat = some (text.length + 1)
  refused : ¬(buf = true ∧ text.length + 1 ≤ cap.toNat) →
    answer.status = .errOom ∧ answer.stored = []
  filled : buf = true ∧ text.length + 1 ≤ cap.toNat →
    answer.status = .ok ∧ ∀ i, storedAt answer.stored i = (text ++ [0])[i]?

/-- The size promised is one a `size_t` holds. -/
theorem SizeProtocol.bounded {text : CString} {buf : Bool} {cap : UInt64} {answer : Printed}
    (promised : SizeProtocol text buf cap answer) : text.length + 1 < 2 ^ 64 := by
  obtain ⟨need, -, size⟩ := Option.map_eq_some_iff.mp promised.sized
  rw [← size]
  exact need.toNat_lt

/-- A value whose blocks can be read. -/
structure ReadableValue where
  value : GeasValue
  readable : Readable value

/-- A buffer that is not given counts as one of no bytes, so a text without a buffer to hold
it is one byte or more too long. -/
theorem room_lt_size {size cap : UInt64} {buf : Bool} {n : Nat} (need : size.toNat = n + 1)
    (refused : ¬ (buf = true ∧ n + 1 ≤ cap.toNat)) : (if buf = true then cap else 0) < size := by
  rw [UInt64.lt_iff_toNat_lt, need]
  split
  · rename_i given
    exact Nat.lt_of_not_le fun room => refused ⟨given, room⟩
  · exact Nat.succ_pos _

/-- A text that a `size_t` can size is rendered by the protocol. -/
theorem geasValueRender_promised {v : GeasValue} (readable : Readable v)
    (bounded : (spelling v 0).length + 1 < 2 ^ 64) (buf : Bool) (cap : UInt64) :
    ∃ answer, geasValueRender (some v) buf cap true = some answer ∧
      SizeProtocol (spelling v 0) buf cap answer := by
  obtain ⟨pieces, spells, puts⟩ := renderValue_prints _ readable 0
  set text := spelling v 0 with isText
  have need : ((pieces.foldl sinkPut ⟨false, 0, 0, []⟩).pos + 1).toNat = text.length + 1 := by
    rw [puts_pos, spells, UInt64.zero_add, UInt64.toNat_add,
      toNat_ofNat_small (by omega)]
    exact Nat.mod_eq_of_lt bounded
  simp only [geasValueRender, puts, Option.bind_eq_bind, Option.bind_some]
  generalize (pieces.foldl sinkPut ⟨false, 0, 0, []⟩).pos + 1 = size at need
  by_cases fits : buf = true ∧ text.length + 1 ≤ cap.toNat
  · obtain ⟨rfl, room⟩ := fits
    have start : Holds ⟨true, cap, 0, []⟩ cap [] := ⟨rfl, rfl, rfl, filled_nil⟩
    have ended := start.puts pieces (by
      rw [spells, List.length_nil]
      omega)
    rw [List.nil_append, spells] at ended
    rw [if_pos rfl, if_neg (by rw [UInt64.lt_iff_toNat_lt]; omega), if_pos rfl, ended.counted]
    exact ⟨_, rfl, congrArg some need, fun small => absurd ⟨rfl, room⟩ small,
      fun _ => ⟨rfl, ended.filled.close 0⟩⟩
  · rw [if_pos (room_lt_size need fits)]
    exact ⟨_, rfl, congrArg some need, fun _ => ⟨rfl, rfl⟩, fun room => absurd room fits⟩

/-! ## The dump -/

/-- The text of a table. -/
def dumpText (inames : List GeasInameEntry) : CString := inames.flatMap inameText

theorem dumpTotal_fits {inames : List GeasInameEntry}
    (short : ∀ e ∈ inames, (inameText e).length ≤ intMax) (total : UInt64) :
    dumpTotal inames total = some (total + UInt64.ofNat (dumpText inames).length) := by
  induction inames generalizing total with
  | nil => simp [dumpTotal, dumpText]
  | cons e rest ih =>
      have one : inameLine e 0 0 = some ((inameText e).length, []) := by
        rw [inameLine, snprintf, if_neg (Nat.not_lt.mpr (short e List.mem_cons_self)), if_pos rfl]
      rw [dumpTotal, one, Option.bind_eq_bind, Option.bind_some,
        ih fun e' listed => short e' (List.mem_cons_of_mem e listed)]
      have parts : dumpText (e :: rest) = inameText e ++ dumpText rest := List.flatMap_cons
      rw [parts, List.length_append, UInt64.ofNat_add, UInt64.add_assoc]

/-- A line beyond `INT_MAX` is not sized. -/
theorem dumpTotal_overlong {inames : List GeasInameEntry} {e : GeasInameEntry}
    (listed : e ∈ inames) (long : intMax < (inameText e).length) (total : UInt64) :
    dumpTotal inames total = none := by
  induction inames generalizing total with
  | nil => cases listed
  | cons first rest ih =>
      rcases List.mem_cons.mp listed with rfl | behind
      · rw [dumpTotal, inameLine, snprintf, if_pos long]
        rfl
      · rw [dumpTotal]
        cases inameLine first 0 0 with
        | none => rfl
        | some n => exact ih behind _

/-- The writing loop from a text on, with room for the rest. -/
theorem dumpLines_filled {inames : List GeasInameEntry} {cap off : UInt64}
    {stored : List (Nat × UInt8)} {text : CString}
    (short : ∀ e ∈ inames, (inameText e).length ≤ intMax) (counted : off.toNat = text.length)
    (filled : Filled stored text) (room : text.length + (dumpText inames).length < cap.toNat) :
    ∃ stores, dumpLines cap inames off stored = (.ok, stores) ∧
      ∀ i, storedAt stores i = (text ++ dumpText inames ++ [0])[i]? := by
  induction inames generalizing off stored text with
  | nil =>
      refine ⟨_, rfl, fun i => ?_⟩
      rw [counted, filled.close, dumpText, List.flatMap_nil, List.append_nil]
  | cons e rest ih =>
      have parts : dumpText (e :: rest) = inameText e ++ dumpText rest := List.flatMap_cons
      rw [parts, List.length_append] at room
      have small := cap.toNat_lt
      have left : (cap - off).toNat = cap.toNat - text.length := by
        rw [UInt64.toNat_sub_of_le _ _ (by rw [UInt64.le_iff_toNat_le]; omega), counted]
      have count : (UInt64.ofNat (inameText e).length).toNat = (inameText e).length :=
        toNat_ofNat_small (by omega)
      have line : inameLine e off.toNat (cap - off).toNat =
          some ((inameText e).length, block text.length (inameText e ++ [0])) := by
        rw [inameLine, snprintf, if_neg (Nat.not_lt.mpr (short e List.mem_cons_self)),
          left, if_neg (by omega), List.take_of_length_le (by omega), counted]
      have next := @ih (off + UInt64.ofNat (inameText e).length)
        (stored ++ block text.length (inameText e ++ [0])) (text ++ inameText e)
        (fun e' listed => short e' (List.mem_cons_of_mem e listed))
        (by
          rw [UInt64.toNat_add, count, counted, List.length_append]
          exact Nat.mod_eq_of_lt (by omega))
        (filled.append (inameText e) 0) (by rw [List.length_append]; omega)
      rw [dumpLines, line]
      simp only []
      rw [if_neg (by rw [ge_iff_le, UInt64.le_iff_toNat_le]; omega), parts,
        ← List.append_assoc text]
      exact next

/-- A table that can be sized is dumped by the protocol. -/
theorem geasInameDump_promised {inames : List GeasInameEntry}
    (short : ∀ e ∈ inames, (inameText e).length ≤ intMax)
    (bounded : (dumpText inames).length + 1 < 2 ^ 64) (buf : Bool) (cap : UInt64) :
    SizeProtocol (dumpText inames) buf cap (geasInameDump (some inames) buf cap true) := by
  have need : (1 + UInt64.ofNat (dumpText inames).length).toNat = (dumpText inames).length + 1 := by
    rw [UInt64.toNat_add, toNat_ofNat_small (by omega), Nat.add_comm]
    exact Nat.mod_eq_of_lt bounded
  simp only [geasInameDump, dumpTotal_fits short]
  generalize 1 + UInt64.ofNat (dumpText inames).length = size at need
  by_cases fits : buf = true ∧ (dumpText inames).length + 1 ≤ cap.toNat
  · obtain ⟨rfl, room⟩ := fits
    obtain ⟨stores, dumps, spells⟩ :=
      @dumpLines_filled inames cap 0 [] [] short rfl filled_nil
        (by
          rw [List.length_nil]
          omega)
    rw [if_pos rfl, if_neg (by rw [UInt64.lt_iff_toNat_lt]; omega), dumps]
    exact ⟨congrArg some need, fun small => absurd ⟨rfl, room⟩ small, fun _ => ⟨rfl, spells⟩⟩
  · rw [if_pos (room_lt_size need fits)]
    exact ⟨congrArg some need, fun _ => ⟨rfl, rfl⟩, fun room => absurd room fits⟩

/-- Both printers keep the size protocol, for every buffer, exactly when the size fits its
type and each line of a dump fits the count of `snprintf`. -/
theorem size_protocol_iff (v : ReadableValue) (inames : List GeasInameEntry) :
    ((∀ buf cap, ∃ answer, geasValueRender (some v.value) buf cap true = some answer ∧
        SizeProtocol (spelling v.value 0) buf cap answer) ↔
      (spelling v.value 0).length + 1 < 2 ^ 64) ∧
    ((∀ buf cap,
        SizeProtocol (dumpText inames) buf cap (geasInameDump (some inames) buf cap true)) ↔
      (∀ e ∈ inames, (inameText e).length ≤ intMax) ∧ (dumpText inames).length + 1 < 2 ^ 64) := by
  constructor
  · constructor
    · intro promised
      obtain ⟨answer, -, keeps⟩ := promised false 0
      exact keeps.bounded
    · exact geasValueRender_promised v.readable
  · constructor
    · intro promised
      refine ⟨fun e listed => Nat.le_of_not_lt fun long => ?_, (promised false 0).bounded⟩
      have sized := (promised false 0).sized
      rw [geasInameDump, dumpTotal_overlong listed long] at sized
      cases sized
    · intro fits
      exact geasInameDump_promised fits.1 fits.2

/-- A contract with a pledge whose mangled name is two gigabytes long. -/
def overlongDesc : InameDesc where
  name := ascii "A"
  shapeHash := 1
  version := 1
  pledges := [⟨ascii "f", some (List.replicate 2147483648 97), 0⟩]

/-- Its table is refused without a size. -/
theorem overlong_name_unsized :
    geasInameDump (some (entriesOf overlongDesc)) false 0 true = ⟨.errOom, none, []⟩ ∧
      ¬ SizeProtocol (dumpText (entriesOf overlongDesc)) false 0
        (geasInameDump (some (entriesOf overlongDesc)) false 0 true) := by
  have long : intMax < (inameText (pledgeEntry overlongDesc ⟨ascii "f", none, 0⟩
      (List.replicate 2147483648 97))).length := by
    simp only [inameText, pledgeEntry, List.length_append, List.length_replicate, intMax]
    omega
  have listed : pledgeEntry overlongDesc ⟨ascii "f", none, 0⟩ (List.replicate 2147483648 97) ∈
      entriesOf overlongDesc :=
    List.mem_cons_of_mem _ List.mem_cons_self
  have unsized : geasInameDump (some (entriesOf overlongDesc)) false 0 true =
      ⟨.errOom, none, []⟩ := by
    rw [geasInameDump, dumpTotal_overlong listed long]
  refine ⟨unsized, fun promised => ?_⟩
  have sized := promised.sized
  rw [unsized] at sized
  cases sized

end Geas.Runtime
