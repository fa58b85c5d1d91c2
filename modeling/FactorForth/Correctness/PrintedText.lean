import FactorForth.Correctness.TextKept
import FactorForth.Correctness.TextWordLaws
import FactorForth.Protocols.Printing

/-! What reaches the session's sink of the texts that a program prints. -/

namespace FactorForth.Correctness
open FactorForth.Library FactorForth.Protocols
open FactorForth.Compiler
open FactorForth.Semantics (LoopFrame)
variable {α : Type}

/-- The bytes of a text. -/
def utf8 (text : List Char) : List UInt8 := text.flatMap String.utf8EncodeChar

/-! The literal as Factor reads it. -/

/-- A line break that `factor_escape` leaves as it stands. -/
def RawBreak (c : Char) : Prop := isLineBreak c = true ∧ c ≠ '\n' ∧ c ≠ '\r'

instance (c : Char) : Decidable (RawBreak c) := inferInstanceAs (Decidable (_ ∧ _ ∧ _))

/-- What a character of a literal is read as. -/
def settled (c : Char) : Char := if RawBreak c then '\n' else c

theorem settled_eq_iff (c : Char) : settled c = c ↔ ¬ RawBreak c := by
  rw [settled]
  split
  · rename_i hRaw
    exact ⟨fun h => absurd h.symm hRaw.2.1, fun h => absurd hRaw h⟩
  · rename_i hNot
    exact iff_of_true rfl hNot

theorem read_settled (text rest : List Char) :
    factorQuoting.read (text.flatMap factorEscapeChar ++ '"' :: rest) = some (text.map settled, rest) := by
  induction text with
  | nil => exact Quoting.read_quote (q := factorQuoting) rest
  | cons c text ih =>
    have hSpells := factorEscape_spells c
    rw [List.flatMap_cons, List.append_assoc, List.map_cons]
    generalize hEsc : factorEscapeChar c = cs at hSpells
    cases hSpells with
    | @named e hNamed =>
      have hSettled : settled c = c := by
        rw [settled_eq_iff]
        rintro ⟨hBreak, hFeed, hReturn⟩
        rcases factorEscape_raw c (mem_lineBreaks hBreak) with hRaw | hFeed' | hReturn'
        · rw [hEsc] at hRaw
          cases hRaw
        · exact hFeed hFeed'
        · exact hReturn hReturn'
      have hRead := Quoting.read_named (q := factorQuoting) hNamed (text.flatMap factorEscapeChar ++ '"' :: rest)
      rw [ih] at hRead
      rw [hSettled]
      exact hRead
    | raw hQuote hSlash =>
      have hNotFeed : c ≠ '\n' := by
        rintro rfl
        cases hEsc
      have hNotReturn : c ≠ '\r' := by
        rintro rfl
        cases hEsc
      have hPair : ¬ (c = '\r' ∧ (text.flatMap factorEscapeChar ++ '"' :: rest).head? = some '\n') :=
        fun hPair => hNotReturn hPair.1
      have hRead := Quoting.read_raw (q := factorQuoting) hQuote hSlash hPair
      rw [ih] at hRead
      have hSettled : settled c = if isLineBreak c then '\n' else c := by
        rw [settled]
        by_cases hBreak : isLineBreak c = true
        · rw [if_pos ⟨hBreak, hNotFeed, hNotReturn⟩, if_pos hBreak]
        · rw [if_neg fun hRaw => hBreak hRaw.1, if_neg hBreak]
      rw [hSettled]
      exact hRead

theorem literalText_chars (text : String) (kind : StringKind) :
    (literalText text kind).toList =
      '"' :: (text.toList.flatMap factorEscapeChar ++ '"' :: (literalSuffix kind).toList) := by
  rw [literalText, factorEscape]
  simp

theorem factorReads_literal (text : String) (kind : StringKind) :
    factorReads (literalText text kind) = text.toList.map settled := by
  rw [factorReads, literalText_chars, readBack, read_settled]
  rfl

theorem settled_text (text : List Char) : text.map settled = text ↔ ∀ c ∈ text, ¬ RawBreak c := by
  have hMap : text.map settled = text.map id ↔ ∀ c ∈ text, settled c = id c := List.map_inj_left
  rw [List.map_id] at hMap
  exact hMap.trans (forall₂_congr fun c _ => settled_eq_iff c)

/-! Bytes. -/

/-- `as u8`. -/
def lowByte (ch : Int) : UInt8 := UInt8.ofNat (ch % 256).toNat

def lowBytes (text : List Char) : List UInt8 := text.map fun c => lowByte c.toNat

theorem lowByte_byte (b : UInt8) : lowByte b.toNat = b := by
  have hLess := b.toNat_lt
  have hMod : ((b.toNat : Int) % 256).toNat = b.toNat := by omega
  rw [lowByte, hMod]
  exact UInt8.ofNat_toNat

theorem lowByte_ascii {c : Char} (h : c.toNat < 128) : [lowByte c.toNat] = String.utf8EncodeChar c := by
  have hMod : ((c.toNat : Int) % 256).toNat = c.toNat := by omega
  rw [Editor.encode_one h, lowByte, hMod]

theorem lowBytes_ascii {text : List Char} (h : ∀ c ∈ text, c.toNat < 128) : lowBytes text = utf8 text := by
  induction text with
  | nil => rfl
  | cons c text ih =>
    have hRest := ih fun d hd => h d (List.mem_cons_of_mem c hd)
    rw [utf8, List.flatMap_cons, ← lowByte_ascii (h c List.mem_cons_self)]
    exact congrArg (lowByte c.toNat :: ·) hRest

/-- Where one byte a character is written, these are the bytes of the text if they all are ASCII. -/
theorem lowBytes_settled (text : List Char) :
    lowBytes (text.map settled) = utf8 text ↔ ∀ c ∈ text, c.toNat < 128 ∧ ¬ RawBreak c := by
  constructor
  · intro hSame
    have hLength := congrArg List.length hSame
    rw [lowBytes, List.length_map, List.length_map] at hLength
    have hAscii := ascii_of_length hLength.symm
    rw [← lowBytes_ascii hAscii] at hSame
    intro c hc
    refine ⟨hAscii c hc, (settled_eq_iff c).mp ?_⟩
    have hEach : ∀ c ∈ text, lowByte (settled c).toNat = lowByte c.toNat := by
      rw [lowBytes, List.map_map] at hSame
      exact List.map_inj_left.mp hSame
    have hByte := congrArg UInt8.toNat (hEach c hc)
    have hSettled : (settled c).toNat < 128 := by
      rw [settled]
      split
      · decide
      · exact hAscii c hc
    have hCode : ∀ d : Char, d.toNat < 128 → (lowByte d.toNat).toNat = d.toNat := by
      intro d hd
      have hMod : ((d.toNat : Int) % 256).toNat = d.toNat := by omega
      rw [lowByte, hMod]
      exact UInt8.toNat_ofNat_of_lt' (Nat.lt_trans hd (by decide))
    rw [hCode _ hSettled, hCode c (hAscii c hc)] at hByte
    exact Char.toNat_inj.mp hByte
  · intro h
    rw [(settled_text text).mpr fun c hc => (h c hc).2]
    exact lowBytes_ascii fun c hc => (h c hc).1

/-! Runs. -/

section Runs
variable (stray : List UInt8 → Nat → UInt8) {decode : List UInt8 → List Char} (st : List (Val (Obj α)))
  (fr : List LoopFrame) (h : List (Store (Obj α))) (rs : List (Val (Obj α))) (sink : List UInt8)

theorem streamWrite_eq (text : List Char) : streamWrite text sink = sink ++ lowBytes text := by
  induction text generalizing sink with
  | nil => exact (List.append_nil sink).symm
  | cons c text ih =>
    have hNext := ih (writeChar c.toNat sink)
    rw [writeChar, List.append_assoc] at hNext
    exact hNext

theorem writeText_run (text : List Char) :
    writeText text (⟨st, fr, h, ⟨rs, sink⟩⟩ : Machine (Obj α) (Returns α (List UInt8))) =
      .ok ⟨st, fr, h, ⟨rs, sink ++ lowBytes text⟩⟩ := by
  rw [writeText, streamWrite_eq]

theorem emit_run (ch : Int) :
    emit (⟨.int ch :: st, fr, h, ⟨rs, sink⟩⟩ : Machine (Obj α) (Returns α (List UInt8))) =
      .ok ⟨st, fr, h, ⟨rs, sink ++ [lowByte ch]⟩⟩ := rfl

/-- What is encoded for `TYPE` comes back from its bytes. -/
theorem typeText_run (hDecode : ∀ text, decode (utf8 text) = text) (text : List Char) :
    seq [sQuoteRuntime text, typeText decode]
        (⟨st, fr, h, ⟨rs, sink⟩⟩ : Machine (Obj α) (Returns α (List UInt8))) =
      .ok ⟨st, fr, h, ⟨rs, sink ++ lowBytes text⟩⟩ := by
  have hQuote : sQuoteRuntime text (⟨st, fr, h, ⟨rs, sink⟩⟩ : Machine (Obj α) (Returns α (List UInt8))) =
      .ok ⟨.int (utf8 text).length :: .other (.nfAddr (utf8 text) 0) :: st, fr, h, ⟨rs, sink⟩⟩ := rfl
  have hBounds : (0 : Int) ≤ (utf8 text).length ∧ ((0 : Nat) : Int) + (utf8 text).length ≤ (utf8 text).length := by
    omega
  simp only [seq_cons, hQuote, ok_bind, typeText, bind2_run, if_pos hBounds, List.drop_zero, Int.toNat_natCast,
    List.take_length, hDecode, writeText_run, seq_nil]

theorem showString_run {h : List (Store (Obj α))} {chars : Val (Obj α)} {cs : List Int}
    (hChars : Holds h chars (cs.map .int)) :
    showString (⟨.string chars :: st, fr, h, ⟨rs, sink⟩⟩ : Machine (Obj α) (Returns α (List UInt8))) =
      .ok ⟨st, fr, h, ⟨rs, sink ++ cs.map lowByte⟩⟩ := by
  have hString : stringChars (⟨.string chars :: st, fr, h, ⟨rs, sink⟩⟩ :
      Machine (Obj α) (Returns α (List UInt8))) = .ok ⟨chars :: st, fr, h, ⟨rs, sink⟩⟩ := rfl
  simp only [showString, seq_cons, hString, ok_bind, dup_run, size_run _ _ _ hChars, List.length_map, lit_run]
  refine walk_then cs (fun pre => ⟨chars :: st, fr, h, ⟨rs, sink ++ pre.map lowByte⟩⟩) 0 cs.length ?_
    (Nat.zero_add _) (fun pre x hp => ?_) ?_
  · rw [List.map_nil, List.append_nil]
    rfl
  · simp only [Machine.inLoop, Nat.zero_add, seq_cons, seq_nil, dup_run, ok_bind, index_run, swap_run,
      charAt_run _ _ _ hChars (getElem?_of_snoc hp), emit_run, List.map_append, List.append_assoc]
    rfl
  · simp only [seq_cons, seq_nil, drop_run, ok_bind]

/-- The text that a program means to print. -/
def meantText : Printing → List Char
  | .dotQuote text | .typed text | .shown text => text.toList
  | .emit c => [c]

/-- The bytes that it prints. -/
def printedBytes : Printing → List UInt8
  | .dotQuote text | .typed text => lowBytes (text.toList.map settled)
  | .emit c => lowBytes [c]
  | .shown text => (readBytes stray (utf8 (text.toList.map settled))).map lowByte

theorem printing_run (hDecode : ∀ text, decode (utf8 text) = text) (op : Printing) :
    ∃ h', seq (op.words stray decode) (⟨st, fr, h, ⟨rs, sink⟩⟩ : Machine (Obj α) (Returns α (List UInt8))) =
      .ok ⟨st, fr, h', ⟨rs, sink ++ printedBytes stray op⟩⟩ := by
  cases op with
  | dotQuote text =>
    refine ⟨h, ?_⟩
    simp only [Printing.words, factorReads_literal, printString, seq_cons, writeText_run, ok_bind, seq_nil,
      printedBytes]
  | typed text =>
    refine ⟨h, ?_⟩
    rw [Printing.words, factorReads_literal]
    exact typeText_run st fr h rs sink hDecode _
  | emit c => exact ⟨h, rfl⟩
  | shown text =>
    have hText := toText_run (h := h) st fr ⟨rs, sink⟩ stray (text.toList.map settled)
    have hHere : Holds (h ++ [.rawvec ((readBytes stray (utf8 (text.toList.map settled))).map .int)])
        (.darray h.length : Val (Obj α)) ((readBytes stray (utf8 (text.toList.map settled))).map .int) :=
      getElem?_here h [] _
    have hParts := @seq_append (Obj α) (Returns α (List UInt8))
      [sQuoteRuntime (text.toList.map settled), toText stray] [showString] ⟨st, fr, h, ⟨rs, sink⟩⟩
    rw [hText, ok_bind, seq_cons, bind_seq_nil] at hParts
    have hShow := showString_run st fr rs sink hHere
    rw [Printing.words, factorReads_literal]
    exact ⟨_, hParts.trans hShow⟩

theorem printings_run (hDecode : ∀ text, decode (utf8 text) = text) (ops : List Printing) :
    ∃ h', seq (ops.flatMap (Printing.words stray decode))
        (⟨st, fr, h, ⟨rs, sink⟩⟩ : Machine (Obj α) (Returns α (List UInt8))) =
      .ok ⟨st, fr, h', ⟨rs, sink ++ ops.flatMap (printedBytes stray)⟩⟩ := by
  induction ops generalizing h sink with
  | nil => exact ⟨h, by rw [List.flatMap_nil, List.flatMap_nil, List.append_nil, seq_nil]⟩
  | cons op ops ih =>
    obtain ⟨h₁, hOp⟩ := printing_run stray st fr h rs sink hDecode op
    obtain ⟨h₂, hRest⟩ := ih h₁ (sink ++ printedBytes stray op)
    refine ⟨h₂, ?_⟩
    rw [List.flatMap_cons, seq_append, hOp, ok_bind, hRest, List.flatMap_cons, List.append_assoc]

end Runs

/-! The condition. -/

/-- What the way to the sink leaves as it is. -/
def Faithful : Printing → Prop
  | .dotQuote text | .typed text => ∀ c ∈ text.toList, c.toNat < 128 ∧ ¬ RawBreak c ∧ c ≠ '\x00'
  | .emit c => c.toNat < 128
  | .shown text => text ≠ "" ∧ ∀ c ∈ text.toList, ¬ RawBreak c ∧ c ≠ '\x00'

/-- No NUL in what Factor gets. -/
def NoNul (op : Printing) : Prop := '\x00' ∉ op.literal.toList

theorem nul_escaped (text : List Char) : '\x00' ∈ text.flatMap factorEscapeChar ↔ '\x00' ∈ text := by
  have hChar : ∀ c, '\x00' ∈ factorEscapeChar c ↔ '\x00' = c := by
    intro c
    fun_cases factorEscapeChar c with
    | case1 => decide
    | case2 => decide
    | case3 => decide
    | case4 => decide
    | case5 => decide
    | case6 => exact List.mem_singleton
  rw [List.mem_flatMap]
  constructor
  · rintro ⟨c, hc, hNul⟩
    rwa [(hChar c).mp hNul]
  · exact fun h => ⟨_, h, (hChar _).mpr rfl⟩

theorem nul_literal (text : String) (kind : StringKind) :
    '\x00' ∈ (literalText text kind).toList ↔ '\x00' ∈ text.toList := by
  have hSuffix : '\x00' ∉ '"' :: (literalSuffix kind).toList := by
    cases kind <;> decide
  have hQuote : ('\x00' : Char) ≠ '"' := by decide
  rw [literalText_chars, List.mem_cons, List.mem_append, nul_escaped, or_iff_right hQuote, or_iff_left hSuffix]

/-- A text keeps its bytes where it is not changed on the way. -/
theorem printedBytes_iff (stray : List UInt8 → Nat → UInt8) {decode : List UInt8 → List Char}
    (hDecode : ∀ text, decode (utf8 text) = text) (op : Printing) :
    (NoNul op ∧ printedBytes stray op = utf8 (meantText op)) ↔ Faithful op := by
  have hInjective : ∀ {a b : List Char}, utf8 a = utf8 b → a = b := by
    intro a b hSame
    rw [← hDecode a, hSame, hDecode]
  have hNul : ∀ {text : String} {kind : StringKind},
      '\x00' ∉ (literalText text kind).toList ↔ ∀ c ∈ text.toList, c ≠ '\x00' := by
    intro text kind
    rw [nul_literal]
    exact ⟨fun h c hc hEq => h (hEq ▸ hc), fun h hIn => h _ hIn rfl⟩
  have hPlain : ∀ {text : String} {kind : StringKind},
      ('\x00' ∉ (literalText text kind).toList ∧ lowBytes (text.toList.map settled) = utf8 text.toList) ↔
        ∀ c ∈ text.toList, c.toNat < 128 ∧ ¬ RawBreak c ∧ c ≠ '\x00' := by
    intro text kind
    rw [hNul, lowBytes_settled]
    exact ⟨fun h c hc => ⟨(h.2 c hc).1, (h.2 c hc).2, h.1 c hc⟩,
      fun h => ⟨fun c hc => (h c hc).2.2, fun c hc => ⟨(h c hc).1, (h c hc).2.1⟩⟩⟩
  cases op with
  | dotQuote text => exact hPlain
  | typed text => exact hPlain
  | emit c =>
    have hNone : NoNul (.emit c) := List.not_mem_nil
    rw [and_iff_right hNone]
    constructor
    · intro hSame
      exact ascii_of_length (congrArg List.length hSame).symm c (List.mem_singleton_self c)
    · intro hAscii
      refine lowBytes_ascii fun d hd => ?_
      rwa [List.mem_singleton.mp hd]
  | shown text =>
    have hText : text ≠ "" ↔ text.toList ≠ [] := not_congr String.toList_eq_nil_iff.symm
    show ('\x00' ∉ (literalText text .sQuote).toList ∧ (readBytes stray (utf8 (text.toList.map settled))).map
      lowByte = utf8 text.toList) ↔ text ≠ "" ∧ ∀ c ∈ text.toList, ¬ RawBreak c ∧ c ≠ '\x00'
    rw [hNul, hText]
    by_cases hEmpty : text.toList = []
    · rw [hEmpty]
      refine iff_of_false (fun h => ?_) fun h => h.1 rfl
      have hLength := congrArg List.length h.2
      cases hLength
    · have hBytes : utf8 (text.toList.map settled) ≠ [] := bytes_ne (mt List.map_eq_nil_iff.mp hEmpty)
      have hBack : (readBytes stray (utf8 (text.toList.map settled))).map lowByte =
          utf8 (text.toList.map settled) := by
        rw [readBytes_ne stray hBytes, List.map_map]
        exact (List.map_congr_left fun b _ => lowByte_byte b).trans (List.map_id _)
      rw [hBack]
      constructor
      · rintro ⟨hNuls, hSame⟩
        have hRaw := (settled_text text.toList).mp (hInjective hSame)
        exact ⟨hEmpty, fun c hc => ⟨hRaw c hc, hNuls c hc⟩⟩
      · rintro ⟨-, hEach⟩
        refine ⟨fun c hc => (hEach c hc).2, congrArg utf8 ?_⟩
        exact (settled_text text.toList).mpr fun c hc => (hEach c hc).1

/-! The law. -/

/-- At every point of the program the sink has the bytes of the texts that it has printed. -/
def PrintsTexts (stray : List UInt8 → Nat → UInt8) (decode : List UInt8 → List Char)
    (program : List Printing) (m : Machine (Obj α) (Returns α (List UInt8))) : Prop :=
  ∀ done, done <+: program → ∃ m', printed stray decode program done m = .ok m' ∧
    m'.world.rest = m.world.rest ++ utf8 (done.flatMap meantText)

theorem noNul_join (program : List Printing) :
    '\x00' ∉ (String.join (program.map Printing.literal)).toList ↔ ∀ op ∈ program, NoNul op := by
  rw [String.toList_join, List.mem_flatMap]
  constructor
  · intro h op hOp hNul
    exact h ⟨_, List.mem_map_of_mem hOp, hNul⟩
  · rintro h ⟨text, hText, hNul⟩
    obtain ⟨op, hOp, rfl⟩ := List.mem_map.mp hText
    exact h op hOp hNul

theorem printed_run (stray : List UInt8 → Nat → UInt8) {decode : List UInt8 → List Char}
    (hDecode : ∀ text, decode (utf8 text) = text) {program : List Printing}
    (hNul : ∀ op ∈ program, NoNul op) (done : List Printing)
    (m : Machine (Obj α) (Returns α (List UInt8))) :
    ∃ m', printed stray decode program done m = .ok m' ∧
      m'.world.rest = m.world.rest ++ done.flatMap (printedBytes stray) := by
  obtain ⟨h', hRun⟩ := printings_run stray m.stack m.frames m.heap m.world.rs m.world.rest hDecode done
  refine ⟨⟨m.stack, m.frames, h', ⟨m.world.rs, m.world.rest ++ done.flatMap (printedBytes stray)⟩⟩, ?_, rfl⟩
  rw [printed, handOver, if_neg ((noNul_join program).mpr hNul)]
  exact hRun

theorem PrintsTexts.faithful {stray : List UInt8 → Nat → UInt8} {decode : List UInt8 → List Char}
    (hDecode : ∀ text, decode (utf8 text) = text) {program : List Printing}
    {m : Machine (Obj α) (Returns α (List UInt8))} (hPrints : PrintsTexts stray decode program m) :
    ∀ op ∈ program, Faithful op := by
  have hNul : ∀ op ∈ program, NoNul op := by
    obtain ⟨m', hRun, -⟩ := hPrints [] List.nil_prefix
    rw [← noNul_join]
    intro hIn
    rw [printed, handOver, if_pos hIn] at hRun
    cases hRun
  have hBytes : ∀ done, done <+: program →
      done.flatMap (printedBytes stray) = utf8 (done.flatMap meantText) := by
    intro done hDone
    obtain ⟨m', hRun, hSink⟩ := hPrints done hDone
    obtain ⟨m'', hRun', hSink'⟩ := printed_run stray hDecode hNul done m
    obtain rfl := Except.ok.inj (hRun.symm.trans hRun')
    exact List.append_cancel_left (hSink'.symm.trans hSink)
  intro op hOp
  obtain ⟨before, after, rfl⟩ := List.append_of_mem hOp
  have hPrefix : before ++ [op] <+: before ++ op :: after := ⟨after, by rw [List.append_assoc]; rfl⟩
  have hWith := hBytes _ hPrefix
  rw [List.flatMap_append, hBytes before (prefix_snoc hPrefix), List.flatMap_append, utf8, utf8,
    List.flatMap_append] at hWith
  have hOne := List.append_cancel_left hWith
  rw [List.flatMap_singleton, List.flatMap_singleton] at hOne
  exact (printedBytes_iff stray hDecode op).mp ⟨hNul op hOp, hOne⟩

/-- The bytes in the sink are those of the texts, at every point of a program, just where every text is
one that the way to the sink leaves as it is. -/
theorem printsTexts_iff (stray : List UInt8 → Nat → UInt8) {decode : List UInt8 → List Char}
    (hDecode : ∀ text, decode (utf8 text) = text) (program : List Printing)
    (m : Machine (Obj α) (Returns α (List UInt8))) :
    PrintsTexts stray decode program m ↔ ∀ op ∈ program, Faithful op := by
  constructor
  · exact fun hPrints => hPrints.faithful hDecode
  · intro hFaithful done hDone
    have hEach := fun op hOp => (printedBytes_iff stray hDecode op).mpr (hFaithful op hOp)
    obtain ⟨m', hRun, hSink⟩ := printed_run stray hDecode (fun op hOp => (hEach op hOp).1) done m
    refine ⟨m', hRun, ?_⟩
    have hSame : done.flatMap (printedBytes stray) = utf8 (done.flatMap meantText) := by
      rw [utf8, List.flatMap_assoc]
      exact List.flatMap_congr fun op hOp => (hEach op (hDone.subset hOp)).2
    rw [hSink, hSame]

/-- A decoder of UTF-8. -/
def decodeText (bytes : List UInt8) : List Char := ((String.fromUTF8? bytes.toByteArray).getD "").toList

theorem decodeText_utf8 (text : List Char) : decodeText (utf8 text) = text := by
  have hValid : ((utf8 text).toByteArray).IsValidUTF8 := ByteArray.isValidUTF8_utf8Encode
  have hString : String.fromUTF8 (utf8 text).toByteArray hValid = String.ofList text := by
    rw [← String.toByteArray_inj, String.toByteArray_ofList]
    rfl
  rw [decodeText, String.fromUTF8?, dif_pos hValid, Option.getD_some, hString, String.toList_ofList]

theorem printsTexts_hello :
    PrintsTexts (fun _ _ => 0) decodeText [.dotQuote "hello", .emit '!', .shown "na\u00efve"]
        (⟨[], [], [], ⟨[], []⟩⟩ : Machine (Obj Unit) (Returns Unit (List UInt8))) ↔
      ∀ op ∈ [Printing.dotQuote "hello", .emit '!', .shown "na\u00efve"], Faithful op :=
  printsTexts_iff _ decodeText_utf8 _ _

/-- One byte is written for a character that has two. -/
theorem accent_lost :
    ¬ PrintsTexts (fun _ _ => 0) decodeText [.dotQuote "\u00e9"]
      (⟨[], [], [], ⟨[], []⟩⟩ : Machine (Obj Unit) (Returns Unit (List UInt8))) := by
  intro hPrints
  have hFaithful := hPrints.faithful decodeText_utf8 _ (List.mem_singleton_self _)
  exact absurd (hFaithful '\u00e9' (by decide)).1 (by decide)

end FactorForth.Correctness
