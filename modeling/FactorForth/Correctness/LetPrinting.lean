import FactorForth.Correctness.LetSentences

/-! Printing LET expressions with no more parentheses than their operators need: the printed tokens are a
sentence, and every sentence of the tree is them with more parentheses around. -/

namespace FactorForth.Correctness.LetForms
open FactorForth.Compiler.LetLang
open FactorForth.Compiler (FloatLit)

/-! The precedence table. -/

/-- How tightly an operator binds: comparisons, sums, products, powers. -/
def opRank : BinOp → Nat
  | .eq | .ne | .lt | .gt | .le | .ge => 0
  | .add | .sub => 1
  | .mul | .div => 2
  | .pow => 3

/-- What may stand on the left without parentheses: the power is right-associative and takes no other
power there, the others associate to the left. -/
def leftRank : BinOp → Nat
  | .pow => 4
  | op => opRank op

def rightRank : BinOp → Nat
  | .pow => 3
  | op => opRank op + 1

/-- The minus sign binds tighter than every operator. -/
def rank : Expr → Nat
  | .bin op _ _ => opRank op
  | .neg _ => 4
  | .lit _ | .var _ | .call _ _ => 5

def opTok : BinOp → Tok
  | .add => .plus
  | .sub => .minus
  | .mul => .star
  | .div => .slash
  | .pow => .starStar
  | .eq => .eqEq
  | .ne => .notEq
  | .lt => .less
  | .gt => .greater
  | .le => .lessEq
  | .ge => .greaterEq

/-- Parentheses around tokens, or none. -/
def parens (needed : Bool) (ts : List Tok) : List Tok :=
  if needed then .lParen :: (ts ++ [.rParen]) else ts

mutual
/-- The tokens of an expression, parentheses only around the operands that need them. -/
def printed : Expr → List Tok
  | .lit n => [.num n]
  | .var name => [.ident name]
  | .bin op l r =>
    parens (rank l < leftRank op) (printed l) ++
      opTok op :: parens (rank r < rightRank op) (printed r)
  | .neg e => .minus :: parens (rank e < 4) (printed e)
  | .call name args => .ident name :: .lParen :: (printedArgs args ++ [.rParen])

def printedArgs : List Expr → List Tok
  | [] => []
  | [e] => printed e
  | e :: next :: rest => printed e ++ .comma :: printedArgs (next :: rest)
end

/-- The tokens of an expression where one of a rank is asked for. -/
def printedAt (k : Nat) (e : Expr) : List Tok := parens (rank e < k) (printed e)

/-! The printed tokens are a sentence. -/

/-- The phrase of an expression where one of a rank is asked for. -/
def phraseAt : Nat → Expr → Phrase
  | 0, e => .level .compare e
  | 1, e => .level .add e
  | 2, e => .level .mul e
  | 3, e => .pow e
  | 4, e => .unary e
  | _ + 5, e => .primary e

def levelRank : Level → Nat
  | .compare => 0
  | .add => 1
  | .mul => 2

theorem phraseAt_level (l : Level) (e : Expr) : phraseAt (levelRank l) e = .level l e := by
  cases l <;> rfl

theorem phraseAt_operand (l : Level) (e : Expr) : phraseAt (levelRank l + 1) e = .operand l e := by
  cases l <;> rfl

/-- A phrase of some rank is one of the rank below. -/
theorem Sentence.lower {k : Nat} {e : Expr} {ts : List Tok} (h : Sentence (phraseAt (k + 1) e) ts) :
    Sentence (phraseAt k e) ts := by
  match k, h with
  | 0, h => exact .operand h
  | 1, h => exact .operand h
  | 2, h => exact .operand h
  | 3, h => exact .base h
  | 4, h => exact .primary h
  | _ + 5, h => exact h

theorem Sentence.lower_le {j k : Nat} {e : Expr} {ts : List Tok} (hjk : j ≤ k)
    (h : Sentence (phraseAt k e) ts) : Sentence (phraseAt j e) ts := by
  induction hjk with
  | refl => exact h
  | step _ ih => exact ih h.lower

/-- In parentheses an expression may stand anywhere. -/
theorem Sentence.parenthesised {e : Expr} {ts : List Tok} (h : Sentence (phraseAt 0 e) ts) (k : Nat) :
    Sentence (phraseAt k e) (.lParen :: (ts ++ [.rParen])) := by
  have hPrimary : Sentence (phraseAt (k + 5) e) (.lParen :: (ts ++ [.rParen])) := .paren h
  exact hPrimary.lower_le (Nat.le_add_right k 5)

/-- From the sentence of an expression to one wherever it may stand. -/
theorem Sentence.atRank {e : Expr} (h : Sentence (phraseAt (rank e) e) (printed e)) (k : Nat) :
    Sentence (phraseAt k e) (printedAt k e) := by
  unfold printedAt parens
  by_cases hk : rank e < k
  · rw [if_pos (decide_eq_true hk)]
    exact (h.lower_le (Nat.zero_le _)).parenthesised k
  · rw [if_neg (by simpa using hk)]
    exact h.lower_le (Nat.le_of_not_lt hk)

/-- The level of a left-associative operator. -/
theorem exists_level {op : BinOp} (h : op ≠ .pow) :
    ∃ l : Level, l.op (opTok op) = some op ∧ levelRank l = opRank op ∧ leftRank op = levelRank l ∧
      rightRank op = levelRank l + 1 := by
  cases op with
  | pow => exact absurd rfl h
  | add | sub => exact ⟨.add, rfl, rfl, rfl, rfl⟩
  | mul | div => exact ⟨.mul, rfl, rfl, rfl, rfl⟩
  | eq | ne | lt | gt | le | ge => exact ⟨.compare, rfl, rfl, rfl, rfl⟩

mutual
theorem printed_sentence : ∀ e : Expr, Sentence (phraseAt (rank e) e) (printed e)
  | .lit n => .num
  | .var name => .var
  | .neg e => by
    rw [printed]
    exact .neg ((printed_sentence e).atRank 4)
  | .bin op l r => by
    have hLeft := (printed_sentence l).atRank (leftRank op)
    have hRight := (printed_sentence r).atRank (rightRank op)
    rw [printed]
    by_cases hPow : op = .pow
    · subst hPow
      exact .power hLeft hRight
    · obtain ⟨level, hOp, hRank, hLeftRank, hRightRank⟩ := exists_level hPow
      rw [hLeftRank, phraseAt_level] at hLeft
      rw [hRightRank, phraseAt_operand] at hRight
      show Sentence (phraseAt (opRank op) _) _
      rw [← hRank, phraseAt_level]
      rw [← hLeftRank] at hLeft
      rw [← hRightRank] at hRight
      exact .bin hLeft hOp hRight
  | .call name args => by
    rw [printed]
    match args with
    | [] => exact .constant
    | e :: es => exact .call (printedArgs_sentence (e :: es) (List.cons_ne_nil e es))

theorem printedArgs_sentence : ∀ es : List Expr, es ≠ [] → Sentence (.list es) (printedArgs es)
  | [], h => absurd rfl h
  | [e], _ => .last ((printed_sentence e).lower_le (Nat.zero_le _))
  | e :: next :: rest, _ =>
    .more ((printed_sentence e).lower_le (Nat.zero_le _))
      (printedArgs_sentence (next :: rest) (List.cons_ne_nil next rest))
end

/-! Every sentence of a tree is the printed one with more parentheses. -/

/-- Tokens with some pairs of parentheses taken away, each with what closes it. -/
inductive Unwrapped : List Tok → List Tok → Prop where
  | nil : Unwrapped [] []
  | tok {t : Tok} (hOpen : t ≠ .lParen) (hClose : t ≠ .rParen) : Unwrapped [t] [t]
  | append {ts us ts' us' : List Tok} (h : Unwrapped ts us) (h' : Unwrapped ts' us') :
      Unwrapped (ts ++ ts') (us ++ us')
  | kept {ts us : List Tok} (h : Unwrapped ts us) :
      Unwrapped (.lParen :: (ts ++ [.rParen])) (.lParen :: (us ++ [.rParen]))
  | dropped {ts us : List Tok} (h : Unwrapped ts us) : Unwrapped (.lParen :: (ts ++ [.rParen])) us

theorem Unwrapped.cons {t : Tok} {ts us : List Tok} (hOpen : t ≠ .lParen) (hClose : t ≠ .rParen)
    (h : Unwrapped ts us) : Unwrapped (t :: ts) (t :: us) := (Unwrapped.tok hOpen hClose).append h

/-- What a sentence of a phrase is unwrapped to. -/
def Minimal : Phrase → List Tok → Prop
  | .level l e, ts => ∀ k ≤ levelRank l, Unwrapped ts (printedAt k e)
  | .pow e, ts => ∀ k ≤ 3, Unwrapped ts (printedAt k e)
  | .unary e, ts => ∀ k ≤ 4, Unwrapped ts (printedAt k e)
  | .primary e, ts => ∀ k ≤ 5, Unwrapped ts (printedAt k e)
  | .list es, ts => Unwrapped ts (printedArgs es)

theorem printedAt_le {k : Nat} {e : Expr} (h : k ≤ rank e) : printedAt k e = printed e := by
  unfold printedAt parens
  rw [if_neg (by simpa using h)]

theorem minimal_operand {l : Level} {e : Expr} {ts : List Tok} (h : Minimal (.operand l e) ts) :
    ∀ k ≤ levelRank l + 1, Unwrapped ts (printedAt k e) := by
  cases l <;> exact h

theorem op_level {l : Level} {t : Tok} {op : BinOp} (h : l.op t = some op) :
    opTok op = t ∧ opRank op = levelRank l ∧ leftRank op = levelRank l ∧
      rightRank op = levelRank l + 1 := by
  cases l <;> cases t <;> cases h <;> exact ⟨rfl, rfl, rfl, rfl⟩

theorem opTok_plain (op : BinOp) : opTok op ≠ .lParen ∧ opTok op ≠ .rParen := by
  cases op <;> exact ⟨nofun, nofun⟩

theorem Sentence.minimal {p : Phrase} {ts : List Tok} (h : Sentence p ts) : Minimal p ts := by
  induction h with
  | operand h ih => exact fun k hk => minimal_operand ih k (Nat.le_succ_of_le hk)
  | @bin l lhs rhs op t ts us hLeft hOp hRight ihLeft ihRight =>
    intro k hk
    obtain ⟨rfl, hRank, hLeftRank, hRightRank⟩ := op_level hOp
    have hk' : k ≤ rank (.bin op lhs rhs) := Nat.le_trans hk (Nat.le_of_eq hRank.symm)
    rw [printedAt_le hk', printed]
    have hLhs : Unwrapped ts (printedAt (leftRank op) lhs) := ihLeft _ (Nat.le_of_eq hLeftRank)
    have hRhs : Unwrapped us (printedAt (rightRank op) rhs) :=
      minimal_operand ihRight _ (Nat.le_of_eq hRightRank)
    exact hLhs.append (hRhs.cons (opTok_plain op).1 (opTok_plain op).2)
  | base h ih => exact fun k hk => ih k (Nat.le_succ_of_le hk)
  | @power lhs rhs ts us hBase hExponent ihBase ihExponent =>
    intro k hk
    rw [printedAt_le hk, printed]
    exact (ihBase 4 (Nat.le_refl 4)).append ((ihExponent 3 (Nat.le_refl 3)).cons nofun nofun)
  | @neg e ts h ih =>
    intro k hk
    rw [printedAt_le hk, printed]
    exact (ih 4 (Nat.le_refl 4)).cons nofun nofun
  | primary h ih => exact fun k hk => ih k (Nat.le_succ_of_le hk)
  | @num n =>
    intro k hk
    rw [printedAt_le hk, printed]
    exact .tok nofun nofun
  | @var name =>
    intro k hk
    rw [printedAt_le hk, printed]
    exact .tok nofun nofun
  | @paren e ts h ih =>
    intro k hk
    have hInner : Unwrapped ts (printed e) := by
      have hZero := ih 0 (Nat.zero_le _)
      rwa [printedAt_le (Nat.zero_le _)] at hZero
    unfold printedAt parens
    split
    · exact .kept hInner
    · exact .dropped hInner
  | @constant name =>
    intro k hk
    rw [printedAt_le hk, printed, printedArgs]
    exact (Unwrapped.kept .nil).cons nofun nofun
  | @call name es ts h ih =>
    intro k hk
    rw [printedAt_le hk, printed]
    exact (Unwrapped.kept ih).cons nofun nofun
  | @last e ts h ih =>
    have hZero := ih 0 (Nat.zero_le _)
    rw [printedAt_le (Nat.zero_le _)] at hZero
    exact hZero
  | @more e es ts us h hMore ih ihMore =>
    have hZero := ih 0 (Nat.zero_le _)
    rw [printedAt_le (Nat.zero_le _)] at hZero
    have hRest : Unwrapped us (printedArgs es) := ihMore
    cases es with
    | nil => cases hMore
    | cons next rest =>
      show Unwrapped _ (printedArgs (e :: next :: rest))
      rw [printedArgs]
      exact hZero.append (hRest.cons nofun nofun)

end FactorForth.Correctness.LetForms
