import FactorForth.Compiler.Lex

/-! The LET sub-language: a lexer of its own and a recursive-descent parser. -/

namespace FactorForth.Compiler.LetLang
open Lex (isBlank nextIsBlankOrEof isDigit isFloatText)

mutual
def Expr.decEq : (a b : Expr) → Decidable (a = b)
  | .lit m, .lit n => decidable_of_decidable_of_eq (Expr.lit.injEq m n).symm
  | .var x, .var y => decidable_of_decidable_of_eq (Expr.var.injEq x y).symm
  | .bin op l r, .bin op' l' r' =>
    have := l.decEq l'
    have := r.decEq r'
    decidable_of_decidable_of_eq (Expr.bin.injEq op l r op' l' r').symm
  | .neg a, .neg b =>
    have := a.decEq b
    decidable_of_decidable_of_eq (Expr.neg.injEq a b).symm
  | .call f as, .call g bs =>
    have := decEqArgs as bs
    decidable_of_decidable_of_eq (Expr.call.injEq f as g bs).symm
  | .lit _, .var _ | .lit _, .bin .. | .lit _, .neg _ | .lit _, .call ..
  | .var _, .lit _ | .var _, .bin .. | .var _, .neg _ | .var _, .call ..
  | .bin .., .lit _ | .bin .., .var _ | .bin .., .neg _ | .bin .., .call ..
  | .neg _, .lit _ | .neg _, .var _ | .neg _, .bin .. | .neg _, .call ..
  | .call .., .lit _ | .call .., .var _ | .call .., .bin .. | .call .., .neg _ => isFalse nofun

def decEqArgs : (as bs : List Expr) → Decidable (as = bs)
  | [], [] => isTrue rfl
  | [], _ :: _ | _ :: _, [] => isFalse nofun
  | a :: as, b :: bs =>
    have := a.decEq b
    have := decEqArgs as bs
    decidable_of_decidable_of_eq (List.cons.injEq a as b bs).symm
end

instance : DecidableEq Expr := Expr.decEq

deriving instance DecidableEq for LetForm

structure LetError where
  message : String
  pos : Nat
deriving DecidableEq, Repr

def LetError.display (e : LetError) : String :=
  "LET error at byte " ++ toString e.pos ++ ": " ++ e.message

inductive Tok where
  | lParen | rParen | comma | equals | arrow
  | plus | minus | star | slash | starStar
  | eqEq | notEq | less | greater | lessEq | greaterEq
  | colon
  | letKw | endKw | whereKw | asKw
  | ident (name : String)
  | num (n : FloatLit)
  | eof
deriving DecidableEq, Repr

/-- What the errors print of a token; the text of a number is left to the caller. -/
def Tok.debug (number : FloatLit → String) : Tok → String
  | .lParen => "LParen"
  | .rParen => "RParen"
  | .comma => "Comma"
  | .equals => "Equals"
  | .arrow => "Arrow"
  | .plus => "Plus"
  | .minus => "Minus"
  | .star => "Star"
  | .slash => "Slash"
  | .starStar => "StarStar"
  | .eqEq => "EqEq"
  | .notEq => "NotEq"
  | .less => "Less"
  | .greater => "Greater"
  | .lessEq => "LessEq"
  | .greaterEq => "GreaterEq"
  | .colon => "Colon"
  | .letKw => "LetKw"
  | .endKw => "EndKw"
  | .whereKw => "WhereKw"
  | .asKw => "AsKw"
  | .ident name => "Ident(\"" ++ name ++ "\")"
  | .num n => "Num(" ++ number n ++ ")"
  | .eof => "Eof"

/-! The lexer. -/

/-- The text from a byte position on. -/
structure Lexer where
  src : List Char
  pos : Nat

/-- White space and `\` comments; there are no parenthesised comments here. -/
def skipWs : (comment : Bool) → List Char → Nat → Lexer
  | _, [], pos => ⟨[], pos⟩
  | true, c :: cs, pos => skipWs (c != '\n') cs (pos + c.utf8Size)
  | false, c :: cs, pos =>
    if isBlank c then skipWs false cs (pos + c.utf8Size)
    else if c = '\\' && nextIsBlankOrEof cs then skipWs true cs (pos + c.utf8Size)
    else ⟨c :: cs, pos⟩

/-- The token of a sign and its length, from the character behind it too. -/
def symbol (c : Char) (next : Option Char) : Option (Tok × Nat) :=
  match c, next with
  | '(', _ => some (.lParen, 1)
  | ')', _ => some (.rParen, 1)
  | ',', _ => some (.comma, 1)
  | '=', some '=' => some (.eqEq, 2)
  | '=', _ => some (.equals, 1)
  | '!', some '=' => some (.notEq, 2)
  | '<', some '=' => some (.lessEq, 2)
  | '<', _ => some (.less, 1)
  | '>', some '=' => some (.greaterEq, 2)
  | '>', _ => some (.greater, 1)
  | '+', _ => some (.plus, 1)
  | '-', some '>' => some (.arrow, 2)
  | '-', _ => some (.minus, 1)
  | '*', some '*' => some (.starStar, 2)
  | '*', _ => some (.star, 1)
  | '/', _ => some (.slash, 1)
  | ':', _ => some (.colon, 1)
  | '^', _ => some (.starStar, 1)
  | _, _ => none

def isLetter (c : Char) : Bool := ('a' ≤ c && c ≤ 'z') || ('A' ≤ c && c ≤ 'Z')

def identStart (c : Char) : Bool := isLetter c || c = '_'

def identChar (c : Char) : Bool := identStart c || isDigit c

/-- A keyword in any case, or an identifier. -/
def wordTok (word : String) : Tok :=
  if lower word = "let" then .letKw
  else if lower word = "end" then .endKw
  else if lower word = "where" then .whereKw
  else if lower word = "as" then .asKw
  else .ident word

/-- The rest of a number; a sign is taken right behind an exponent mark only. -/
def scanNumber : (dot mark : Bool) → List Char → List Char
  | _, _, [] => []
  | dot, mark, c :: cs =>
    if isDigit c then c :: scanNumber dot false cs
    else if c = '.' && !dot then c :: scanNumber true false cs
    else if c = 'e' || c = 'E' then c :: scanNumber dot true cs
    else if mark && (c = '+' || c = '-') then c :: scanNumber dot false cs
    else []

/-- The first byte of a character. -/
def firstByte (c : Char) : Nat :=
  let n := c.toNat
  if n < 0x80 then n
  else if n < 0x800 then 0xC0 + n / 2 ^ 6
  else if n < 0x10000 then 0xE0 + n / 2 ^ 12
  else 0xF0 + n / 2 ^ 18

/-- The token that begins at a character, and its length. -/
def readTok (c : Char) (cs : List Char) : Except String (Tok × Nat) :=
  match symbol c cs.head? with
  | some t => .ok t
  | none =>
    if c = '!' then .error "stray '!' (did you mean '!='?)"
    else if identStart c then
      let word := c :: cs.takeWhile identChar
      .ok (wordTok (String.ofList word), word.length)
    else if isDigit c || c = '.' then
      let s := c :: scanNumber (c = '.') false cs
      if s = ['.'] then .error "lone '.' isn't a number"
      else if isFloatText s then .ok (.num ⟨String.ofList s⟩, s.length)
      else .error ("invalid number '" ++ String.ofList s ++ "'")
    else .error ("unexpected character '" ++ String.singleton (Char.ofNat (firstByte c)) ++ "'")

def nextTok (l : Lexer) : Except LetError ((Tok × Nat) × Lexer) :=
  match skipWs false l.src l.pos with
  | ⟨[], start⟩ => .ok ((.eof, start), ⟨[], start⟩)
  | ⟨c :: cs, start⟩ =>
    match readTok c cs with
    | .error message => .error ⟨message, start⟩
    | .ok (t, n) => .ok ((t, start), ⟨(c :: cs).drop n, start + n⟩)

theorem skipWs_length (comment : Bool) (cs : List Char) (pos : Nat) :
    (skipWs comment cs pos).src.length ≤ cs.length := by
  induction cs generalizing comment pos with
  | nil => simp [skipWs]
  | cons c cs ih =>
    cases comment with
    | true =>
      rw [skipWs]
      exact Nat.le_succ_of_le (ih _ _)
    | false =>
      rw [skipWs]
      split
      · exact Nat.le_succ_of_le (ih _ _)
      · split
        · exact Nat.le_succ_of_le (ih _ _)
        · exact Nat.le_refl _

theorem symbol_pos {c : Char} {next : Option Char} {t : Tok × Nat} (h : symbol c next = some t) :
    0 < t.2 := by
  unfold symbol at h
  split at h <;> cases h <;> decide

theorem readTok_pos {c : Char} {cs : List Char} {t : Tok × Nat} (h : readTok c cs = .ok t) :
    0 < t.2 := by
  unfold readTok at h
  split at h
  · rename_i t' hSymbol
    cases h
    exact symbol_pos hSymbol
  · split_ifs at h
    · obtain rfl := Except.ok.inj h
      exact Nat.succ_pos _
    · dsimp only at h
      split_ifs at h
      obtain rfl := Except.ok.inj h
      exact Nat.succ_pos _

/-- A token is shorter than the text it is read from. -/
theorem nextTok_shorter {l l' : Lexer} {t : Tok × Nat} (h : nextTok l = .ok (t, l'))
    (hEof : t.1 ≠ .eof) : l'.src.length < l.src.length := by
  have hSkip := skipWs_length false l.src l.pos
  unfold nextTok at h
  split at h
  · cases h
    exact absurd rfl hEof
  · rename_i c cs start hText
    rw [hText] at hSkip
    split at h
    · cases h
    · rename_i t' n hTok
      cases h
      have hPos := readTok_pos hTok
      refine Nat.lt_of_lt_of_le ?_ hSkip
      rw [List.length_drop, List.length_cons]
      exact Nat.sub_lt (Nat.succ_pos _) hPos

/-- The tokens with the bytes they start at, and the end of the text or the error behind them. -/
structure Tokens where
  toks : List (Tok × Nat)
  stop : Except LetError Nat

def tokens (l : Lexer) : Tokens :=
  match _h : nextTok l with
  | .error e => ⟨[], .error e⟩
  | .ok (t, l') =>
    if _hEof : t.1 = .eof then ⟨[], .ok t.2⟩
    else
      let later := tokens l'
      ⟨t :: later.toks, later.stop⟩
termination_by l.src.length
decreasing_by exact nextTok_shorter _h _hEof

/-! The parser. -/

/-- A result and the tokens behind it, which are fewer. -/
structure Read (α : Type) (n : Nat) where
  value : α
  rest : List (Tok × Nat)
  shorter : rest.length < n

namespace Read
variable {α β : Type} {m n : Nat}

def weaken (r : Read α m) (h : m ≤ n) : Read α n := ⟨r.value, r.rest, Nat.lt_of_lt_of_le r.shorter h⟩

def map (f : α → β) (r : Read α n) : Read β n := ⟨f r.value, r.rest, r.shorter⟩

end Read

section Parser
variable (number : FloatLit → String) (stop : Except LetError Nat)

def stopPos : Nat :=
  match stop with
  | .ok pos => pos
  | .error e => e.pos

/-- The token that the parser looks at. -/
def cur : List (Tok × Nat) → Tok × Nat
  | t :: _ => t
  | [] => (.eof, stopPos stop)

/-- Moving on to these tokens reads the first of them. -/
def bump : List (Tok × Nat) → Except LetError Unit
  | _ :: _ => .ok ()
  | [] => stop.map fun _ => ()

def refuse {α : Type} (expected : String) (toks : List (Tok × Nat)) : Except LetError α :=
  .error ⟨expected ++ ", got " ++ (cur stop toks).1.debug number, (cur stop toks).2⟩

def expect (t : Tok) (toks : List (Tok × Nat)) : Except LetError (Read Unit toks.length) :=
  match toks with
  | (t', pos) :: rest =>
    if t' = t then (bump stop rest).map fun _ => ⟨(), rest, Nat.lt_succ_self _⟩
    else refuse number stop ("expected " ++ t.debug number) ((t', pos) :: rest)
  | [] => refuse number stop ("expected " ++ t.debug number) []

def takeIdent (expected : String) (toks : List (Tok × Nat)) :
    Except LetError (Read String toks.length) :=
  match toks with
  | (.ident name, _) :: rest => (bump stop rest).map fun _ => ⟨name, rest, Nat.lt_succ_self _⟩
  | toks => refuse number stop expected toks

/-- The output names up to and with the closing parenthesis; commas are white space. -/
def outputNames (toks : List (Tok × Nat)) : Except LetError (Read (List String) toks.length) :=
  match toks with
  | (.comma, _) :: rest => do
    bump stop rest
    let names ← outputNames rest
    return names.weaken (Nat.le_succ _)
  | (.rParen, _) :: rest => do
    bump stop rest
    return ⟨[], rest, Nat.lt_succ_self _⟩
  | (.ident name, _) :: rest => do
    bump stop rest
    let names ← outputNames rest
    return (names.map (name :: ·)).weaken (Nat.le_succ _)
  | toks => refuse number stop "expected identifier or ')'" toks

def outputList (toks : List (Tok × Nat)) : Except LetError (Read (List String) toks.length) := do
  let start ← expect number stop .lParen toks
  let names ← outputNames number stop start.rest
  return names.weaken (Nat.le_of_lt start.shorter)

/-- The slot names behind `as`, up to what is no identifier. -/
def slotNames (toks : List (Tok × Nat)) : Except LetError (Read (List String) (toks.length + 1)) :=
  match toks with
  | (.ident name, _) :: rest => do
    bump stop rest
    let names ← slotNames rest
    return (names.map (name :: ·)).weaken (Nat.le_succ _)
  | toks => .ok ⟨[], toks, Nat.lt_succ_self _⟩

def asClause (toks : List (Tok × Nat)) : Except LetError (Read (List String) (toks.length + 1)) :=
  match toks with
  | (.asKw, _) :: rest => do
    bump stop rest
    let slots ← slotNames stop rest
    if slots.value.isEmpty then
      .error ⟨"`as` requires at least one slot name", (cur stop slots.rest).2⟩
    else return slots.weaken (Nat.le_succ _)
  | toks => .ok ⟨[], toks, Nat.lt_succ_self _⟩

/-- The `:class as slot …` that may stand behind an input. -/
def destructureClause (toks : List (Tok × Nat)) :
    Except LetError (Read (Option DestructureClause) (toks.length + 1)) :=
  match toks with
  | (.colon, _) :: rest => do
    bump stop rest
    let cls ← takeIdent number stop "expected class name after `:`" rest
    let slots ← asClause stop cls.rest
    return (slots.map fun s => some ⟨cls.value, s⟩).weaken
      (Nat.le_succ_of_le (Nat.le_succ_of_le cls.shorter))
  | toks => .ok ⟨none, toks, Nat.lt_succ_self _⟩

def inputNames (toks : List (Tok × Nat)) : Except LetError (Read (List LetInput) toks.length) :=
  match toks with
  | (.comma, _) :: rest => do
    bump stop rest
    let inputs ← inputNames rest
    return inputs.weaken (Nat.le_succ _)
  | (.rParen, _) :: rest => do
    bump stop rest
    return ⟨[], rest, Nat.lt_succ_self _⟩
  | (.ident name, _) :: rest => do
    bump stop rest
    let clause ← destructureClause number stop rest
    have _hClause := clause.shorter
    let inputs ← inputNames clause.rest
    return (inputs.map (⟨name, clause.value⟩ :: ·)).weaken (Nat.le_of_lt _hClause)
  | toks => refuse number stop "expected identifier" toks
termination_by toks.length

def inputList (toks : List (Tok × Nat)) : Except LetError (Read (List LetInput) toks.length) := do
  let start ← expect number stop .lParen toks
  let inputs ← inputNames number stop start.rest
  return inputs.weaken (Nat.le_of_lt start.shorter)

/-- The left-associative levels, loosest first. -/
inductive Level where
  | compare
  | add
  | mul

/-- The operators of a level. -/
def Level.op : Level → Tok → Option BinOp
  | .compare, .less => some .lt
  | .compare, .greater => some .gt
  | .compare, .lessEq => some .le
  | .compare, .greaterEq => some .ge
  | .compare, .eqEq => some .eq
  | .compare, .notEq => some .ne
  | .add, .plus => some .add
  | .add, .minus => some .sub
  | .mul, .star => some .mul
  | .mul, .slash => some .div
  | _, _ => none

def Level.rank : Level → Nat
  | .compare => 8
  | .add => 6
  | .mul => 4

mutual
/-- The operands of a level are the expressions of the next. -/
def parseOperand (level : Level) (toks : List (Tok × Nat)) : Except LetError (Read Expr toks.length) :=
  match level with
  | .compare => parseLevel .add toks
  | .add => parseLevel .mul toks
  | .mul => parsePow toks
termination_by 16 * toks.length + level.rank
decreasing_by all_goals (simp only [Level.rank]; omega)

def parseLevel (level : Level) (toks : List (Tok × Nat)) :
    Except LetError (Read Expr toks.length) := do
  let lhs ← parseOperand level toks
  have hShort := lhs.shorter
  let e ← parseLoop level lhs.value lhs.rest
  return e.weaken hShort
termination_by 16 * toks.length + level.rank + 1
decreasing_by all_goals omega

/-- The operators of a level that follow, with what is parsed so far on their left. -/
def parseLoop (level : Level) (lhs : Expr) (toks : List (Tok × Nat)) :
    Except LetError (Read Expr (toks.length + 1)) :=
  match toks with
  | (t, pos) :: rest =>
    match level.op t with
    | some op => do
      bump stop rest
      let rhs ← parseOperand level rest
      have hShort := rhs.shorter
      let e ← parseLoop level (.bin op lhs rhs.value) rhs.rest
      return e.weaken (Nat.le_succ_of_le (Nat.le_succ_of_le hShort))
    | none => .ok ⟨lhs, (t, pos) :: rest, Nat.lt_succ_self _⟩
  | [] => .ok ⟨lhs, [], Nat.lt_succ_self _⟩
termination_by 16 * toks.length
decreasing_by all_goals (cases level <;> simp only [Level.rank, List.length_cons] <;> omega)

/-- The power operator is right-associative. -/
def parsePow (toks : List (Tok × Nat)) : Except LetError (Read Expr toks.length) := do
  let lhs ← parseUnary toks
  have hShort := lhs.shorter
  match hRest : lhs.rest with
  | (.starStar, _) :: rest =>
    have hLess : rest.length < toks.length := by
      rw [hRest, List.length_cons] at hShort
      exact Nat.lt_of_succ_lt hShort
    bump stop rest
    let rhs ← parsePow rest
    return (rhs.map (.bin .pow lhs.value)).weaken (Nat.le_of_lt hLess)
  | _ => return lhs
termination_by 16 * toks.length + 3
decreasing_by all_goals omega

def parseUnary (toks : List (Tok × Nat)) : Except LetError (Read Expr toks.length) :=
  match toks with
  | (.minus, _) :: rest => do
    bump stop rest
    let e ← parseUnary rest
    return (e.map .neg).weaken (Nat.le_succ _)
  | toks => parsePrimary toks
termination_by 16 * toks.length + 2
decreasing_by all_goals (try simp only [List.length_cons]); omega

def parsePrimary (toks : List (Tok × Nat)) : Except LetError (Read Expr toks.length) :=
  match toks with
  | (.num n, _) :: rest => do
    bump stop rest
    return ⟨.lit n, rest, Nat.lt_succ_self _⟩
  | (.ident name, _) :: rest => do
    bump stop rest
    parseCall name rest
  | (.lParen, _) :: rest => do
    bump stop rest
    let e ← parseLevel .compare rest
    have hShort := e.shorter
    let close ← expect number stop .rParen e.rest
    return ⟨e.value, close.rest,
      Nat.lt_succ_of_lt (Nat.lt_trans close.shorter hShort)⟩
  | (t, pos) :: rest => do
    bump stop rest
    .error ⟨"unexpected token in expression: " ++ t.debug number, pos⟩
  | [] => .error ⟨"unexpected token in expression: " ++ Tok.eof.debug number, stopPos stop⟩
termination_by 16 * toks.length + 1
decreasing_by all_goals (simp only [List.length_cons, Level.rank]; omega)

/-- A name is called when a parenthesis follows. -/
def parseCall (name : String) (toks : List (Tok × Nat)) :
    Except LetError (Read Expr (toks.length + 1)) :=
  match toks with
  | (.lParen, _) :: (.rParen, _) :: rest => do
    bump stop rest
    return ⟨.call name [], rest, by simp only [List.length_cons]; omega⟩
  | (.lParen, _) :: rest => do
    bump stop rest
    let args ← parseArgs rest
    return (args.map (.call name)).weaken (Nat.le_succ_of_le (Nat.le_succ _))
  | toks => .ok ⟨.var name, toks, Nat.lt_succ_self _⟩
termination_by 16 * toks.length + 12
decreasing_by all_goals (simp only [List.length_cons]; omega)

/-- The arguments of a call, one at least, and the closing parenthesis. -/
def parseArgs (toks : List (Tok × Nat)) : Except LetError (Read (List Expr) toks.length) := do
  let e ← parseLevel .compare toks
  have hShort := e.shorter
  match hRest : e.rest with
  | (.comma, _) :: rest =>
    have hLess : rest.length < toks.length := by
      rw [hRest, List.length_cons] at hShort
      exact Nat.lt_of_succ_lt hShort
    bump stop rest
    let args ← parseArgs rest
    return (args.map (e.value :: ·)).weaken (Nat.le_of_lt hLess)
  | _ => do
    let close ← expect number stop .rParen e.rest
    return ⟨[e.value], close.rest, Nat.lt_trans close.shorter hShort⟩
termination_by 16 * toks.length + 11
decreasing_by all_goals (try simp only [Level.rank]); omega
end

def parseCompare (toks : List (Tok × Nat)) : Except LetError (Read Expr toks.length) :=
  parseLevel number stop .compare toks

def parseAdd (toks : List (Tok × Nat)) : Except LetError (Read Expr toks.length) :=
  parseLevel number stop .add toks

def parseMul (toks : List (Tok × Nat)) : Except LetError (Read Expr toks.length) :=
  parseLevel number stop .mul toks

def parseExpr (toks : List (Tok × Nat)) : Except LetError (Read Expr toks.length) :=
  parseCompare number stop toks

/-- The results of a form; the commas between them are needed. -/
def parseResults (toks : List (Tok × Nat)) : Except LetError (Read (List Expr) toks.length) := do
  let e ← parseExpr number stop toks
  have hShort := e.shorter
  match hRest : e.rest with
  | (.comma, _) :: rest =>
    have hLess : rest.length < toks.length := by
      rw [hRest, List.length_cons] at hShort
      exact Nat.lt_of_succ_lt hShort
    bump stop rest
    let results ← parseResults rest
    return (results.map (e.value :: ·)).weaken (Nat.le_of_lt hLess)
  | _ => return e.map fun e => [e]
termination_by toks.length

def parseWheres (toks : List (Tok × Nat)) :
    Except LetError (Read (List (String × Expr)) (toks.length + 1)) :=
  match toks with
  | (.whereKw, _) :: rest => do
    bump stop rest
    let name ← takeIdent number stop "WHERE expects identifier" rest
    have hName := name.shorter
    let equals ← expect number stop .equals name.rest
    have hEquals := equals.shorter
    let e ← parseExpr number stop equals.rest
    have hShort := e.shorter
    let wheres ← parseWheres e.rest
    return (wheres.map ((name.value, e.value) :: ·)).weaken (by simp only [List.length_cons]; omega)
  | toks => .ok ⟨[], toks, Nat.lt_succ_self _⟩
termination_by toks.length
decreasing_by all_goals (simp only [List.length_cons]; omega)

def parseForm (toks : List (Tok × Nat)) : Except LetError (LetForm × List (Tok × Nat)) := do
  let kw ← expect number stop .letKw toks
  let inputs ← inputList number stop kw.rest
  let arrow ← expect number stop .arrow inputs.rest
  let outputs ← outputList number stop arrow.rest
  let equals ← expect number stop .equals outputs.rest
  let results ← parseResults number stop equals.rest
  let wheres ← parseWheres number stop results.rest
  let done ← expect number stop .endKw wheres.rest
  if outputs.value.length = results.value.length then
    return (⟨inputs.value, outputs.value, results.value, wheres.value⟩, done.rest)
  else
    .error ⟨"LET declares " ++ toString outputs.value.length ++ " outputs but body has " ++
      toString results.value.length ++ " result expressions", 0⟩

end Parser

def parse (number : FloatLit → String) (source : String) : Except LetError LetForm := do
  let ts := tokens ⟨source.toList, 0⟩
  bump ts.stop ts.toks
  let (form, rest) ← parseForm number ts.stop ts.toks
  if rest = [] then return form
  else
    .error ⟨"trailing tokens after END: " ++ (cur ts.stop rest).1.debug number, (cur ts.stop rest).2⟩

end FactorForth.Compiler.LetLang
