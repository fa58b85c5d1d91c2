import FactorForth.Compiler.Ast
import Mathlib.Tactic.Common

/-! The tokeniser. The source bytes are read a character at a time; every delimiter is ASCII, so the
byte slices of the code are the character runs taken here. -/

namespace FactorForth.Compiler

inductive CompileError where
  | unterminatedString (kind : String) (openedAt : Span)
  | unterminatedBlockComment (openedAt : Span)
  | malformedNumber (token : String) (at_ : Span) (reason : String)
deriving DecidableEq, Repr

def CompileError.display : CompileError → String
  | .unterminatedString kind openedAt =>
    "unterminated " ++ kind ++ " string opened at " ++ openedAt.display
  | .unterminatedBlockComment openedAt =>
    "unterminated ( comment opened at " ++ openedAt.display
  | .malformedNumber token at_ reason =>
    "malformed number `" ++ token ++ "` at " ++ at_.display ++ ": " ++ reason

namespace Lex

inductive NumBase where
  | decimal
  | hex
  | binary
  | decimalExplicit
  | hex0x
deriving DecidableEq, Repr

/-- A token that is not a comment. -/
inductive Tok where
  | word (s : String)
  | int (value : Int) (base : NumBase) (raw : String)
  | float (value : FloatLit) (raw : String)
  | str (value : String) (kind : StringKind)
  | letBlock (text : String)
deriving DecidableEq, Repr

inductive Kind where
  | code (t : Tok)
  | lineComment (text : String)
  | blockComment (text : String)
deriving DecidableEq, Repr

structure Token where
  kind : Kind
  span : Span
deriving DecidableEq, Repr

structure Cursor where
  rest : List Char
  pos : Pos

def step (p : Pos) (c : Char) : Pos :=
  if c = '\n' then ⟨p.line + 1, 1, p.byteOffset + 1⟩
  else ⟨p.line, p.col + c.utf8Size, p.byteOffset + c.utf8Size⟩

def isBlank (c : Char) : Bool := c = ' ' || c = '\t' || c = '\r' || c = '\n'

def nextIsBlankOrEof : List Char → Bool
  | [] => true
  | c :: _ => isBlank c

def skipWs : List Char → Pos → Cursor
  | [], p => ⟨[], p⟩
  | c :: cs, p => if isBlank c then skipWs cs (step p c) else ⟨c :: cs, p⟩

/-- The text up to the first character that `stop` takes, and the cursor at that character. -/
def readUntil (stop : Char → Bool) : List Char → Pos → List Char × Cursor
  | [], p => ([], ⟨[], p⟩)
  | c :: cs, p =>
    if stop c then ([], ⟨c :: cs, p⟩)
    else
      let (text, cur) := readUntil stop cs (step p c)
      (c :: text, cur)

theorem skipWs_length (cs : List Char) (p : Pos) : (skipWs cs p).rest.length ≤ cs.length := by
  induction cs generalizing p with
  | nil => exact Nat.le_refl _
  | cons c cs ih =>
    rw [skipWs]
    split
    · exact Nat.le_trans (ih _) (Nat.le_succ _)
    · exact Nat.le_refl _

theorem readUntil_length (stop : Char → Bool) (cs : List Char) (p : Pos) :
    (readUntil stop cs p).2.rest.length ≤ cs.length := by
  induction cs generalizing p with
  | nil => exact Nat.le_refl _
  | cons c cs ih =>
    rw [readUntil]
    split
    · exact Nat.le_refl _
    · exact Nat.le_trans (ih _) (Nat.le_succ _)

/-- The one separator that may follow a parsing word. -/
def skipSeparator : List Char → Pos → Cursor
  | c :: cs, p => if c = ' ' || c = '\t' then ⟨cs, step p c⟩ else ⟨c :: cs, p⟩
  | [], p => ⟨[], p⟩

theorem skipSeparator_length (cs : List Char) (p : Pos) :
    (skipSeparator cs p).rest.length ≤ cs.length := by
  cases cs with
  | nil => exact Nat.le_refl _
  | cons c cs =>
    rw [skipSeparator]
    split
    · exact Nat.le_succ _
    · exact Nat.le_refl _

/-! Comments and strings. -/

def trimEndReturns (cs : List Char) : List Char := (cs.reverse.dropWhile (· == '\r')).reverse

/-- The text to the end of the line; the line feed is consumed. -/
def readToEol (cs : List Char) (p : Pos) : String × Cursor :=
  let (text, cur) := readUntil (· == '\n') cs p
  (String.ofList (trimEndReturns text), match cur.rest with
    | c :: rest => ⟨rest, step cur.pos c⟩
    | [] => cur)

def readParenComment (cs : List Char) (p start : Pos) : Except CompileError (String × Cursor) :=
  let (text, cur) := readUntil (· == ')') cs p
  match cur.rest with
  | [] => .error (.unterminatedBlockComment ⟨start, cur.pos⟩)
  | c :: rest => .ok (String.ofList text, ⟨rest, step cur.pos c⟩)

def kindName : StringKind → String
  | .dotQuote => "dot-quote (.\")"
  | .sQuote => "S-quote (S\")"
  | .cQuote => "C-quote (C\")"
  | .sDollarQuote => "S$-quote (S$\")"

def readQuotedString (kind : StringKind) (cs : List Char) (p start : Pos) :
    Except CompileError (String × Cursor) :=
  let (text, cur) := readUntil (· == '"') cs p
  match cur.rest with
  | [] => .error (.unterminatedString (kindName kind) ⟨start, cur.pos⟩)
  | c :: rest => .ok (String.ofList text, ⟨rest, step cur.pos c⟩)

def decodeCharEscape : Char → Option Nat
  | 'n' => some 10
  | 't' => some 9
  | 'r' => some 13
  | '0' => some 0
  | 's' => some 32
  | 'e' => some 27
  | '\\' => some 92
  | '\'' => some 39
  | '"' => some 34
  | _ => none

/-! Numbers. -/

def isDigit (c : Char) : Bool := '0' ≤ c && c ≤ '9'

def isHexDigit (c : Char) : Bool := isDigit c || ('a' ≤ c && c ≤ 'f') || ('A' ≤ c && c ≤ 'F')

/-- A cell, as 64-bit arithmetic leaves it. -/
def wrap64 (n : Int) : Int := Int.bmod n (2 ^ 64)

def hasExponent : List Char → Bool
  | [] => false
  | c :: cs =>
    ((c = 'e' || c = 'E') && match cs with
      | [] => true
      | d :: _ => isDigit d || d = '-' || d = '+') || hasExponent cs

def startsHex0x : List Char → Bool
  | '0' :: 'x' :: _ => true
  | '0' :: 'X' :: _ => true
  | _ => false

def startsBasePrefix : List Char → Bool
  | c :: _ => c = '$' || c = '%' || c = '#'
  | [] => false

def looksLikeFloat (raw : List Char) : Bool :=
  let body := match raw with
    | '-' :: rest => rest
    | '+' :: rest => rest
    | other => other
  !(startsHex0x raw || startsBasePrefix raw || startsBasePrefix body || startsHex0x body) &&
    (match raw with
      | first :: _ => isDigit first || first = '-' || first = '+' || first = '.'
      | [] => false) &&
    raw.any isDigit && (raw.contains '.' || hasExponent raw)

def dropSign : List Char → List Char
  | '+' :: rest => rest
  | '-' :: rest => rest
  | other => other

def isExponentText : List Char → Bool
  | [] => true
  | c :: cs => (c = 'e' || c = 'E') && !(dropSign cs).isEmpty && (dropSign cs).all isDigit

/-- The decimal texts that `str::parse::<f64>` takes. -/
def isFloatText (s : List Char) : Bool :=
  let body := dropSign s
  ["inf", "infinity", "nan"].contains (lower (String.ofList body)) ||
    match body.dropWhile isDigit with
    | '.' :: frac =>
      (!(body.takeWhile isDigit).isEmpty || !(frac.takeWhile isDigit).isEmpty) &&
        isExponentText (frac.dropWhile isDigit)
    | rest => !(body.takeWhile isDigit).isEmpty && isExponentText rest

/-- A trailing bare exponent mark is dropped before the text is read. -/
def stripBareExponent (raw : List Char) : List Char :=
  match raw.reverse with
  | e :: d :: rest =>
    if (e = 'e' || e = 'E') && (isDigit d || d = '.') then (d :: rest).reverse else raw
  | _ => raw

def parseFloat (raw : List Char) : Option FloatLit :=
  if isFloatText (stripBareExponent raw) then some ⟨String.ofList raw⟩ else none

def digitValue (c : Char) : Option Nat :=
  if isDigit c then some (c.toNat - '0'.toNat)
  else if 'a' ≤ c && c ≤ 'f' then some (10 + (c.toNat - 'a'.toNat))
  else if 'A' ≤ c && c ≤ 'F' then some (10 + (c.toNat - 'A'.toNat))
  else none

/-- The accumulator of the digit loop; underscores separate, and overflow wraps. -/
def digitsValue (base : Nat) (raw : String) (span : Span) : Int → List Char → Except CompileError Int
  | acc, [] => .ok acc
  | acc, c :: cs =>
    match digitValue c with
    | some d =>
      if base ≤ d then .error (.malformedNumber raw span "digit out of base range")
      else digitsValue base raw span (wrap64 (acc * base + d)) cs
    | none =>
      if c = '_' then digitsValue base raw span acc cs
      else .error (.malformedNumber raw span "non-digit character in number")

def parseIntWithBase (digits : List Char) (base : Nat) (tag : NumBase) (raw : String)
    (span : Span) : Except CompileError Tok :=
  if digits.isEmpty then .error (.malformedNumber raw span "number prefix with no digits")
  else (digitsValue base raw span 0 digits).map fun value => .int value tag raw

/-- What a minus sign in front of `rest` makes of it, when it is a number. -/
def negated (raw : String) : Except CompileError Tok → Option Tok
  | .ok (.int value base _) => some (.int (wrap64 (-value)) base raw)
  | .ok (.float _ _) => some (.float ⟨raw⟩ raw)
  | _ => none

def startsNumber (rest : List Char) : Bool :=
  startsBasePrefix rest || startsHex0x rest || match rest with
    | c :: _ => isDigit c
    | [] => false

def classify (span : Span) : List Char → Except CompileError Tok
  | [] => .ok (.word "")
  | c :: cs =>
    let text := String.ofList (c :: cs)
    let word := Except.ok (.word text)
    if looksLikeFloat (c :: cs) then
      match parseFloat (c :: cs) with
      | some value => .ok (.float value text)
      | none => .error (.malformedNumber text span "looks like a float but didn't parse")
    else if c = '$' && !cs.isEmpty && cs.all isHexDigit then
      parseIntWithBase cs 16 .hex text span
    else if c = '%' && !cs.isEmpty && cs.all (fun d => d = '0' || d = '1') then
      parseIntWithBase cs 2 .binary text span
    else if c = '#' && !cs.isEmpty && cs.all isDigit then
      parseIntWithBase cs 10 .decimalExplicit text span
    else if startsHex0x (c :: cs) then parseIntWithBase cs.tail 16 .hex0x text span
    else if c = '-' && startsNumber cs then
      match negated text (classify span cs) with
      | some tok => .ok tok
      | none => word
    else if (c :: cs).all isDigit then parseIntWithBase (c :: cs) 10 .decimal text span
    else word

/-! LET blocks. -/

inductive LetScan where
  | blank
  | word (w : List Char)
  | line
  | paren

/-- `is_whitespace` of an ASCII character. -/
def isLetBlank (c : Char) : Bool := c = ' ' || (9 ≤ c.toNat && c.toNat ≤ 13)

/-- The scan is over bytes and takes 0x85 and 0xA0 as white space, also where one of them is the last
byte of a longer character. -/
def endsInBlankByte (c : Char) : Bool :=
  128 ≤ c.toNat && (c.toNat % 64 = 5 || c.toNat % 64 = 32)

def isEndWord (w : List Char) : Bool := lower (String.ofList w) == "end"

/-- The characters up to and with the closing `END`, and those behind it. -/
def findLetEnd : LetScan → List Char → Option (List Char × List Char)
  | .word w, [] => if isEndWord w then some ([], []) else none
  | _, [] => none
  | scan, c :: cs =>
    let continue_ := fun scan => (findLetEnd scan cs).map fun r => (c :: r.1, r.2)
    match scan with
    | .blank =>
      if isLetBlank c || endsInBlankByte c then continue_ .blank
      else if c = '\\' && (cs.isEmpty || cs.head?.any isLetBlank) then continue_ .line
      else if c = '(' && cs.head?.any isLetBlank then continue_ .paren
      else continue_ (.word [c])
    | .line => if c = '\n' then continue_ .blank else continue_ .line
    | .paren => if c = ')' then continue_ .blank else continue_ .paren
    | .word w =>
      if isLetBlank c then
        if isEndWord w then some ([], c :: cs) else continue_ .blank
      else if endsInBlankByte c then continue_ .blank
      else continue_ (.word (w ++ [c]))

/-- A block and what is behind it are the whole text. -/
theorem findLetEnd_text {scan : LetScan} {cs : List Char} {r : List Char × List Char}
    (h : findLetEnd scan cs = some r) : cs = r.1 ++ r.2 := by
  induction cs generalizing scan r with
  | nil =>
    cases scan with
    | word w =>
      simp only [findLetEnd] at h
      split at h
      · cases h
        rfl
      · cases h
    | _ => simp [findLetEnd] at h
  | cons c cs ih =>
    have keep : ∀ {s : LetScan}, ((findLetEnd s cs).map fun r => (c :: r.1, r.2)) = some r →
        c :: cs = r.1 ++ r.2 := by
      intro s hs
      obtain ⟨q, hq, rfl⟩ := Option.map_eq_some_iff.mp hs
      exact congrArg (c :: ·) (ih hq)
    cases scan with
    | blank =>
      simp only [findLetEnd] at h
      split_ifs at h <;> exact keep h
    | line =>
      simp only [findLetEnd] at h
      split_ifs at h <;> exact keep h
    | paren =>
      simp only [findLetEnd] at h
      split_ifs at h <;> exact keep h
    | word w =>
      simp only [findLetEnd] at h
      split_ifs at h
      · cases h
        rfl
      · exact keep h
      · exact keep h
      · exact keep h

theorem findLetEnd_length {scan : LetScan} {cs : List Char} {r : List Char × List Char}
    (h : findLetEnd scan cs = some r) : r.2.length ≤ cs.length := by
  rw [findLetEnd_text h, List.length_append]
  exact Nat.le_add_left _ _

def byteLength (cs : List Char) : Nat := (cs.map Char.utf8Size).sum

/-! The dispatch. -/

def codeToken (t : Tok) (start : Pos) (cur : Cursor) : Option (Token × Cursor) :=
  some (⟨.code t, ⟨start, cur.pos⟩⟩, cur)

def stringToken (kind : StringKind) (cs : List Char) (p start : Pos) :
    Except CompileError (Option (Token × Cursor)) :=
  let sep := skipSeparator cs p
  (readQuotedString kind sep.rest sep.pos start).map fun r => codeToken (.str r.1 kind) start r.2

/-- The literals that begin at a quote: `'\e'` and `'c'`. -/
def charLiteral : List Char → Pos → Option (Nat × String × Cursor)
  | '\'' :: '\\' :: esc :: '\'' :: rest, p =>
    match decodeCharEscape esc with
    | some v =>
      some (v, String.ofList ['\'', '\\', esc, '\''],
        ⟨rest, step (step (step (step p '\'') '\\') esc) '\''⟩)
    | none => none
  | '\'' :: c :: '\'' :: rest, p =>
    if c.toNat < 128 then
      some (c.toNat, String.ofList ['\'', c, '\''], ⟨rest, step (step (step p '\'') c) '\''⟩)
    else none
  | _, _ => none

def letToken (raw : List Char) (start : Pos) (cur : Cursor) :
    Except CompileError (Option (Token × Cursor)) :=
  match findLetEnd .blank cur.rest with
  | none => .error (.unterminatedString "LET-block" ⟨start, cur.pos⟩)
  | some (body, rest) =>
    -- only the byte offset moves; line and column stay those of the word LET
    let pos : Pos := { cur.pos with byteOffset := cur.pos.byteOffset + byteLength body }
    .ok (codeToken (.letBlock (String.ofList (raw ++ body))) start ⟨rest, pos⟩)

def wordToken (cs : List Char) (p : Pos) : Except CompileError (Option (Token × Cursor)) :=
  let (raw, cur) := readUntil isBlank cs p
  if lower (String.ofList raw) = "let" then letToken raw p cur
  else (classify ⟨p, cur.pos⟩ raw).map fun t => codeToken t p cur

def nextToken (cs : List Char) (p : Pos) : Except CompileError (Option (Token × Cursor)) :=
  match cs with
  | [] => .ok none
  | c :: rest =>
    if c = '\\' && nextIsBlankOrEof rest then
      let sep := skipSeparator rest (step p c)
      let (text, cur) := readToEol sep.rest sep.pos
      .ok (some (⟨.lineComment text, ⟨p, cur.pos⟩⟩, cur))
    else if c = '(' && nextIsBlankOrEof rest then
      let sep := skipSeparator rest (step p c)
      (readParenComment sep.rest sep.pos p).map fun r =>
        some (⟨.blockComment r.1, ⟨p, r.2.pos⟩⟩, r.2)
    else match charLiteral (c :: rest) p with
      | some (value, raw, cur) => .ok (codeToken (.int value .decimal raw) p cur)
      | none =>
        match c, rest with
        | 'S', '$' :: '"' :: more => stringToken .sDollarQuote more (step (step (step p c) '$') '"') p
        | 's', '$' :: '"' :: more => stringToken .sDollarQuote more (step (step (step p c) '$') '"') p
        | '.', '"' :: more => stringToken .dotQuote more (step (step p c) '"') p
        | 'S', '"' :: more => stringToken .sQuote more (step (step p c) '"') p
        | 's', '"' :: more => stringToken .sQuote more (step (step p c) '"') p
        | 'C', '"' :: more => stringToken .cQuote more (step (step p c) '"') p
        | 'c', '"' :: more => stringToken .cQuote more (step (step p c) '"') p
        | _, _ => wordToken (c :: rest) p

/-! Every token takes at least one character, which is what makes the loop end. -/

theorem readToEol_length (cs : List Char) (p : Pos) : (readToEol cs p).2.rest.length ≤ cs.length := by
  have h := readUntil_length (· == '\n') cs p
  simp only [readToEol]
  split
  · next c rest hr =>
    rw [hr] at h
    exact Nat.le_of_succ_le h
  · exact h

theorem readParenComment_length {cs : List Char} {p start : Pos} {r : String × Cursor}
    (h : readParenComment cs p start = .ok r) : r.2.rest.length < cs.length := by
  have hl := readUntil_length (· == ')') cs p
  simp only [readParenComment] at h
  split at h
  · cases h
  · next c rest hr =>
    cases h
    rw [hr] at hl
    exact hl

theorem readQuotedString_length {kind : StringKind} {cs : List Char} {p start : Pos}
    {r : String × Cursor} (h : readQuotedString kind cs p start = .ok r) :
    r.2.rest.length < cs.length := by
  have hl := readUntil_length (· == '"') cs p
  simp only [readQuotedString] at h
  split at h
  · cases h
  · next c rest hr =>
    cases h
    rw [hr] at hl
    exact hl

theorem stringToken_length {kind : StringKind} {cs : List Char} {p start : Pos} {t : Token}
    {cur : Cursor} (h : stringToken kind cs p start = .ok (some (t, cur))) :
    cur.rest.length < cs.length := by
  simp only [stringToken] at h
  cases hr : readQuotedString kind (skipSeparator cs p).rest (skipSeparator cs p).pos start with
  | error e => simp [hr, Except.map] at h
  | ok r =>
    simp only [hr, Except.map, codeToken, Except.ok.injEq, Option.some.injEq, Prod.mk.injEq] at h
    rw [← h.2]
    exact Nat.lt_of_lt_of_le (readQuotedString_length hr) (skipSeparator_length cs p)

theorem charLiteral_length {cs : List Char} {p : Pos} {v : Nat} {raw : String} {cur : Cursor}
    (h : charLiteral cs p = some (v, raw, cur)) : cur.rest.length < cs.length := by
  unfold charLiteral at h
  split at h
  · split at h
    · cases h
      simp only [List.length_cons]
      omega
    · cases h
  · split at h
    · cases h
      simp only [List.length_cons]
      omega
    · cases h
  · cases h

theorem letToken_length {raw : List Char} {start : Pos} {cur : Cursor} {t : Token} {cur' : Cursor}
    (h : letToken raw start cur = .ok (some (t, cur'))) : cur'.rest.length ≤ cur.rest.length := by
  simp only [letToken] at h
  split at h
  · cases h
  · next body rest hb =>
    simp only [codeToken, Except.ok.injEq, Option.some.injEq, Prod.mk.injEq] at h
    rw [← h.2]
    exact findLetEnd_length hb

theorem wordToken_length {c : Char} {cs : List Char} {p : Pos} {t : Token} {cur : Cursor}
    (hc : isBlank c = false) (h : wordToken (c :: cs) p = .ok (some (t, cur))) :
    cur.rest.length < (c :: cs).length := by
  have hread : (readUntil isBlank (c :: cs) p).2.rest.length < (c :: cs).length := by
    rw [readUntil, hc]
    exact Nat.lt_succ_of_le (readUntil_length isBlank cs (step p c))
  simp only [wordToken] at h
  split at h
  · exact Nat.lt_of_le_of_lt (letToken_length h) hread
  · cases hk : classify ⟨p, (readUntil isBlank (c :: cs) p).2.pos⟩
        (readUntil isBlank (c :: cs) p).1 with
    | error e => simp [hk, Except.map] at h
    | ok k =>
      simp only [hk, Except.map, codeToken, Except.ok.injEq, Option.some.injEq,
        Prod.mk.injEq] at h
      rw [← h.2]
      exact hread

theorem nextToken_length {cs : List Char} {p : Pos} {t : Token} {cur : Cursor}
    (hb : cs.head?.all (fun c => !isBlank c)) (h : nextToken cs p = .ok (some (t, cur))) :
    cur.rest.length < cs.length := by
  cases cs with
  | nil => cases h
  | cons c rest =>
    have hc : isBlank c = false := by simpa using hb
    rw [nextToken.eq_def] at h
    dsimp only at h
    split at h
    · simp only [Except.ok.injEq, Option.some.injEq, Prod.mk.injEq] at h
      rw [← h.2]
      exact Nat.lt_succ_of_le (Nat.le_trans (readToEol_length _ _) (skipSeparator_length _ _))
    · split at h
      · cases hr : readParenComment (skipSeparator rest (step p c)).rest
            (skipSeparator rest (step p c)).pos p with
        | error e => simp [hr, Except.map] at h
        | ok r =>
          simp only [hr, Except.map, Except.ok.injEq, Option.some.injEq, Prod.mk.injEq] at h
          rw [← h.2]
          exact Nat.lt_succ_of_lt
            (Nat.lt_of_lt_of_le (readParenComment_length hr) (skipSeparator_length _ _))
      · split at h
        · next hl =>
          simp only [codeToken, Except.ok.injEq, Option.some.injEq, Prod.mk.injEq] at h
          rw [← h.2]
          exact charLiteral_length hl
        · split at h
          case h_8 => exact wordToken_length hc h
          all_goals
            have hs := stringToken_length h
            simp only [List.length_cons]
            omega

theorem skipWs_head (cs : List Char) (p : Pos) :
    (skipWs cs p).rest.head?.all (fun c => !isBlank c) := by
  induction cs generalizing p with
  | nil => rfl
  | cons c cs ih =>
    rw [skipWs]
    split
    · exact ih _
    · next h => simpa using h

def lexFrom (cs : List Char) (p : Pos) : Except CompileError (List Token) :=
  match _h : nextToken (skipWs cs p).rest (skipWs cs p).pos with
  | .error e => .error e
  | .ok none => .ok []
  | .ok (some (t, cur)) => (lexFrom cur.rest cur.pos).map (t :: ·)
termination_by cs.length
decreasing_by exact Nat.lt_of_lt_of_le (nextToken_length (skipWs_head cs p) _h) (skipWs_length cs p)

end Lex

def lex (source : String) : Except CompileError (List Lex.Token) :=
  Lex.lexFrom source.toList Pos.start

end FactorForth.Compiler
