import FactorForth.Correctness.LetPrinting

/-! The LET parser takes every sentence of an expression for that expression, so that trees and printed
tokens determine each other. -/

namespace FactorForth.Correctness.LetForms
open FactorForth.Library FactorForth.Compiler.LetLang
open FactorForth.Compiler (FloatLit)

/-! What may follow a phrase. -/

/-- How tightly a token would bind to the expression before it; a parenthesis makes a call of a name. -/
def tightness : Tok → Nat
  | .less | .greater | .lessEq | .greaterEq | .eqEq | .notEq => 1
  | .plus | .minus => 2
  | .star | .slash => 3
  | .starStar => 4
  | .lParen => 5
  | _ => 0

/-- The tokens behind bind no tighter. -/
def Follow (k : Nat) (rest : List (Tok × Nat)) : Prop :=
  ∀ t ∈ rest.head?, tightness t.1 ≤ k

theorem Follow.mono {j k : Nat} {rest : List (Tok × Nat)} (h : Follow j rest) (hjk : j ≤ k) :
    Follow k rest := fun t ht => Nat.le_trans (h t ht) hjk

theorem follow_cons {k : Nat} {t : Tok} {pos : Nat} {rest : List (Tok × Nat)} (h : tightness t ≤ k) :
    Follow k ((t, pos) :: rest) := by
  rintro _ ⟨⟩
  exact h

theorem op_tightness {l : Level} {t : Tok} {op : BinOp} (h : l.op t = some op) :
    tightness t = levelRank l + 1 := by
  cases l <;> cases t <;> cases h <;> rfl

theorem op_none {l : Level} {t : Tok} (h : tightness t ≤ levelRank l) : l.op t = none := by
  cases hOp : l.op t with
  | none => rfl
  | some op => exact absurd (op_tightness hOp) (by omega)

/-! The tokens a phrase starts with. -/

/-- A token that may start an expression. -/
def starts : Tok → Bool
  | .minus | .lParen | .num _ | .ident _ => true
  | _ => false

theorem Sentence.starts {p : Phrase} {ts : List Tok} (h : Sentence p ts) :
    ∃ t us, ts = t :: us ∧ LetForms.starts t = true := by
  induction h with
  | operand _ ih | base _ ih | primary _ ih | last _ ih => exact ih
  | bin _ _ _ ih _ | power _ _ ih _ | more _ _ ih _ =>
    obtain ⟨t, us, rfl, hStarts⟩ := ih
    exact ⟨t, _, rfl, hStarts⟩
  | neg | num | var | paren | constant | call => exact ⟨_, _, rfl, rfl⟩

theorem primary_start {e : Expr} {ts : List Tok} (h : Sentence (.primary e) ts) :
    ts.head? ≠ some .minus := by
  cases h <;> nofun

/-! The parser on a sentence. -/

/-- A run of the parser ends with a value and the tokens behind. -/
def Gives {α : Type} {n : Nat} (run : Except LetError (Read α n)) (v : α) (rest : List (Tok × Nat)) :
    Prop := ∃ r, run = .ok r ∧ r.value = v ∧ r.rest = rest

section Parser
variable {number : FloatLit → String} {stop : Except LetError Nat}

/-- The parser takes the tokens of a phrase for its expression, whatever follows that does not bind to
it. At a level the operators behind are still to be read. -/
def Taken (number : FloatLit → String) (stop : Except LetError Nat) : Phrase → List Tok → Prop
  | .level l e, ts => ∀ toks rest v after, toks.map Prod.fst = ts → Follow (levelRank l + 1) rest →
    bump stop rest = .ok () → Gives (parseLoop number stop l e rest) v after →
    Gives (parseLevel number stop l (toks ++ rest)) v after
  | .pow e, ts => ∀ toks rest, toks.map Prod.fst = ts → Follow 3 rest → bump stop rest = .ok () →
    Gives (parsePow number stop (toks ++ rest)) e rest
  | .unary e, ts => ∀ toks rest, toks.map Prod.fst = ts → Follow 4 rest → bump stop rest = .ok () →
    Gives (parseUnary number stop (toks ++ rest)) e rest
  | .primary e, ts => ∀ toks rest, toks.map Prod.fst = ts → Follow 4 rest → bump stop rest = .ok () →
    Gives (parsePrimary number stop (toks ++ rest)) e rest
  | .list es, ts => ∀ toks pos rest, toks.map Prod.fst = ts → bump stop rest = .ok () →
    Gives (parseArgs number stop (toks ++ (.rParen, pos) :: rest)) es rest

/-- Nothing behind binds to the level. -/
theorem loop_stops {l : Level} {e : Expr} {rest : List (Tok × Nat)} (h : Follow (levelRank l) rest) :
    Gives (parseLoop number stop l e rest) e rest := by
  rw [parseLoop.eq_def]
  cases rest with
  | nil => exact ⟨_, rfl, rfl, rfl⟩
  | cons t rest =>
    have hNone : l.op t.1 = none := op_none (h t rfl)
    dsimp only
    rw [hNone]
    exact ⟨_, rfl, rfl, rfl⟩

section Steps
variable {l : Level} {op : BinOp} {t : Tok} {pos : Nat} {name : String} {lhs rhs e v : Expr}
  {es : List Expr} {toks rest after : List (Tok × Nat)} {pos' : Nat}

theorem gives_level (hOperand : Gives (parseOperand number stop l toks) e rest)
    (hLoop : Gives (parseLoop number stop l e rest) v after) :
    Gives (parseLevel number stop l toks) v after := by
  obtain ⟨⟨_, _, hShort⟩, hOperand, rfl, rfl⟩ := hOperand
  obtain ⟨r, hLoop, rfl, rfl⟩ := hLoop
  refine ⟨r.weaken hShort, ?_, rfl, rfl⟩
  rw [parseLevel.eq_def, hOperand]
  show (parseLoop number stop l _ _ >>= fun e => pure (e.weaken hShort)) = _
  rw [hLoop]
  rfl

theorem gives_operator (hOp : l.op t = some op) (hBump : bump stop toks = .ok ())
    (hOperand : Gives (parseOperand number stop l toks) rhs rest)
    (hLoop : Gives (parseLoop number stop l (.bin op lhs rhs) rest) v after) :
    Gives (parseLoop number stop l lhs ((t, pos) :: toks)) v after := by
  obtain ⟨⟨_, _, hShort⟩, hOperand, rfl, rfl⟩ := hOperand
  obtain ⟨r, hLoop, rfl, rfl⟩ := hLoop
  refine ⟨r.weaken (Nat.le_succ_of_le (Nat.le_succ_of_le hShort)), ?_, rfl, rfl⟩
  rw [parseLoop.eq_def]
  dsimp only
  rw [hOp]
  dsimp only
  rw [hBump, hOperand]
  show (parseLoop number stop l _ _ >>= fun e => pure (e.weaken _)) = _
  rw [hLoop]
  rfl

theorem gives_pow (hBase : Gives (parseUnary number stop toks) e rest) (hRest : Follow 3 rest) :
    Gives (parsePow number stop toks) e rest := by
  obtain ⟨⟨_, rest, hShort⟩, hBase, rfl, rfl⟩ := hBase
  refine ⟨⟨_, rest, hShort⟩, ?_, rfl, rfl⟩
  rw [parsePow.eq_def, hBase]
  dsimp only [bind, Except.bind]
  split
  · exact absurd (hRest (.starStar, _) rfl) (show ¬ 4 ≤ 3 by decide)
  · rfl

theorem gives_power (hBase : Gives (parseUnary number stop toks) lhs ((.starStar, pos) :: rest))
    (hBump : bump stop rest = .ok ()) (hExponent : Gives (parsePow number stop rest) rhs after) :
    Gives (parsePow number stop toks) (.bin .pow lhs rhs) after := by
  obtain ⟨⟨lhs, _, hShort⟩, hBase, rfl, rfl⟩ := hBase
  obtain ⟨⟨rhs, after, hLess⟩, hExponent, rfl, rfl⟩ := hExponent
  refine ⟨⟨_, _, Nat.lt_trans hLess (Nat.lt_of_succ_lt hShort)⟩, ?_, rfl, rfl⟩
  rw [parsePow.eq_def, hBase]
  show (bump stop rest >>= fun _ => parsePow number stop rest >>= fun e =>
    pure ((e.map (Expr.bin .pow lhs)).weaken _)) = _
  rw [hBump, hExponent]
  rfl

theorem gives_neg (h : Gives (parseUnary number stop toks) e rest) (hBump : bump stop toks = .ok ()) :
    Gives (parseUnary number stop ((.minus, pos) :: toks)) (.neg e) rest := by
  obtain ⟨⟨e, rest, hShort⟩, h, rfl, rfl⟩ := h
  refine ⟨⟨_, _, Nat.lt_succ_of_lt hShort⟩, ?_, rfl, rfl⟩
  rw [parseUnary.eq_def]
  dsimp only
  rw [hBump, h]
  rfl

theorem gives_primary (h : Gives (parsePrimary number stop toks) e rest)
    (hStart : ∀ t ∈ toks.head?, t.1 ≠ .minus) : Gives (parseUnary number stop toks) e rest := by
  rw [parseUnary.eq_def]
  split
  · exact absurd rfl (hStart _ rfl)
  · exact h

theorem gives_paren (h : Gives (parseLevel number stop .compare toks) e ((.rParen, pos') :: rest))
    (hBump : bump stop toks = .ok ()) (hAfter : bump stop rest = .ok ()) :
    Gives (parsePrimary number stop ((.lParen, pos) :: toks)) e rest := by
  obtain ⟨⟨e, _, hShort⟩, h, rfl, rfl⟩ := h
  refine ⟨⟨_, _, ?_⟩, ?_, rfl, rfl⟩
  · exact Nat.lt_succ_of_lt (Nat.lt_of_succ_lt hShort)
  · rw [parsePrimary.eq_def]
    dsimp only
    rw [hBump, h]
    show (expect number stop .rParen _ >>= fun close => _) = _
    rw [expect, if_pos rfl, hAfter]
    rfl

theorem gives_num {n : FloatLit} (hBump : bump stop rest = .ok ()) :
    Gives (parsePrimary number stop ((.num n, pos) :: rest)) (.lit n) rest := by
  refine ⟨⟨_, _, Nat.lt_succ_self _⟩, ?_, rfl, rfl⟩
  rw [parsePrimary.eq_def]
  dsimp only
  rw [hBump]
  rfl

theorem gives_ident (h : Gives (parseCall number stop name toks) e rest)
    (hBump : bump stop toks = .ok ()) :
    Gives (parsePrimary number stop ((.ident name, pos) :: toks)) e rest := by
  obtain ⟨r, h, rfl, rfl⟩ := h
  refine ⟨r, ?_, rfl, rfl⟩
  rw [parsePrimary.eq_def]
  dsimp only
  rw [hBump]
  exact h

theorem gives_var (hRest : Follow 4 rest) : Gives (parseCall number stop name rest) (.var name) rest := by
  rw [parseCall.eq_def]
  split
  · exact absurd (hRest (.lParen, _) rfl) (show ¬ 5 ≤ 4 by decide)
  · exact absurd (hRest (.lParen, _) rfl) (show ¬ 5 ≤ 4 by decide)
  · exact ⟨_, rfl, rfl, rfl⟩

theorem gives_constant (hBump : bump stop rest = .ok ()) :
    Gives (parseCall number stop name ((.lParen, pos) :: (.rParen, pos') :: rest)) (.call name [])
      rest := by
  refine ⟨⟨_, _, by simp only [List.length_cons]; omega⟩, ?_, rfl, rfl⟩
  rw [parseCall.eq_def]
  dsimp only
  rw [hBump]
  rfl

theorem gives_call (h : Gives (parseArgs number stop toks) es rest) (hBump : bump stop toks = .ok ())
    (hStart : ∀ t ∈ toks.head?, t.1 ≠ .rParen) :
    Gives (parseCall number stop name ((.lParen, pos) :: toks)) (.call name es) rest := by
  obtain ⟨⟨es, rest, hShort⟩, h, rfl, rfl⟩ := h
  refine ⟨⟨_, _, Nat.lt_succ_of_lt (Nat.lt_succ_of_lt hShort)⟩, ?_, rfl, rfl⟩
  rw [parseCall.eq_def]
  rcases toks with _ | ⟨⟨t, p⟩, toks⟩
  · dsimp only
    rw [hBump, h]
    rfl
  · cases t with
    | rParen => exact absurd rfl (hStart _ rfl)
    | _ =>
      dsimp only
      rw [hBump, h]
      rfl

theorem gives_last (h : Gives (parseLevel number stop .compare toks) e ((.rParen, pos) :: rest))
    (hBump : bump stop rest = .ok ()) : Gives (parseArgs number stop toks) [e] rest := by
  obtain ⟨⟨e, _, hShort⟩, h, rfl, rfl⟩ := h
  refine ⟨⟨_, _, Nat.lt_of_succ_lt hShort⟩, ?_, rfl, rfl⟩
  rw [parseArgs.eq_def, h]
  show (expect number stop .rParen _ >>= fun close => _) = _
  rw [expect, if_pos rfl, hBump]
  rfl

theorem gives_more (h : Gives (parseLevel number stop .compare toks) e ((.comma, pos) :: rest))
    (hBump : bump stop rest = .ok ()) (hMore : Gives (parseArgs number stop rest) es after) :
    Gives (parseArgs number stop toks) (e :: es) after := by
  obtain ⟨⟨e, _, hShort⟩, h, rfl, rfl⟩ := h
  obtain ⟨⟨es, after, hLess⟩, hMore, rfl, rfl⟩ := hMore
  refine ⟨⟨_, _, Nat.lt_trans hLess (Nat.lt_of_succ_lt hShort)⟩, ?_, rfl, rfl⟩
  rw [parseArgs.eq_def, h]
  show (bump stop rest >>= fun _ => parseArgs number stop rest >>= fun args =>
    pure ((args.map (e :: ·)).weaken _)) = _
  rw [hBump, hMore]
  rfl

end Steps

theorem map_split {toks : List (Tok × Nat)} {t : Tok} {ts us : List Tok}
    (h : toks.map Prod.fst = ts ++ t :: us) : ∃ front pos back, toks = front ++ (t, pos) :: back ∧
      front.map Prod.fst = ts ∧ back.map Prod.fst = us := by
  obtain ⟨front, rest, rfl, hFront, hRest⟩ := List.map_eq_append_iff.mp h
  obtain ⟨⟨_, pos⟩, back, rfl, rfl, hBack⟩ := List.map_eq_cons_iff.mp hRest
  exact ⟨front, pos, back, rfl, hFront, hBack⟩

theorem bump_append {rest : List (Tok × Nat)} (h : bump stop rest = .ok ()) (toks : List (Tok × Nat)) :
    bump stop (toks ++ rest) = .ok () := by
  cases toks with
  | nil => exact h
  | cons t toks => rfl

/-- The first token of a phrase, with what is behind it. -/
theorem head_starts {p : Phrase} {ts : List Tok} {toks : List (Tok × Nat)} (h : Sentence p ts)
    (hToks : toks.map Prod.fst = ts) (rest : List (Tok × Nat)) :
    ∀ t ∈ (toks ++ rest).head?, starts t.1 = true ∧ ts.head? = some t.1 := by
  obtain ⟨t, us, rfl, hStarts⟩ := h.starts
  obtain ⟨⟨_, pos⟩, back, rfl, rfl, _⟩ := List.map_eq_cons_iff.mp hToks
  rintro _ ⟨⟩
  exact ⟨hStarts, rfl⟩

/-- An operand is read up to what does not bind to it. -/
theorem operand_taken {l : Level} {e : Expr} {ts : List Tok}
    (h : Taken number stop (.operand l e) ts) {toks rest : List (Tok × Nat)}
    (hToks : toks.map Prod.fst = ts) (hFollow : Follow (levelRank l + 1) rest)
    (hBump : bump stop rest = .ok ()) : Gives (parseOperand number stop l (toks ++ rest)) e rest := by
  rw [parseOperand.eq_def]
  cases l with
  | compare => exact h toks rest _ _ hToks (hFollow.mono (by decide)) hBump (loop_stops hFollow)
  | add => exact h toks rest _ _ hToks (hFollow.mono (by decide)) hBump (loop_stops hFollow)
  | mul => exact h toks rest hToks hFollow hBump

theorem Sentence.taken {p : Phrase} {ts : List Tok} (h : Sentence p ts) : Taken number stop p ts := by
  induction h with
  | operand h ih =>
    intro toks rest v after hToks hFollow hBump hLoop
    exact gives_level (operand_taken ih hToks hFollow hBump) hLoop
  | @bin l lhs rhs op t ts us hLeft hOp hRight ihLeft ihRight =>
    intro toks rest v after hToks hFollow hBump hLoop
    obtain ⟨front, pos, back, rfl, hFront, hBack⟩ := map_split hToks
    have hOperand := operand_taken ihRight hBack hFollow hBump
    have hOperator : Gives (parseLoop number stop l lhs ((t, pos) :: (back ++ rest))) v after :=
      gives_operator hOp (bump_append hBump back) hOperand hLoop
    rw [List.append_assoc]
    exact ihLeft front _ v after hFront (follow_cons (Nat.le_of_eq (op_tightness hOp))) rfl hOperator
  | base h ih =>
    intro toks rest hToks hFollow hBump
    exact gives_pow (ih toks rest hToks (hFollow.mono (by decide)) hBump) hFollow
  | power hBase hExponent ihBase ihExponent =>
    intro toks rest hToks hFollow hBump
    obtain ⟨front, pos, back, rfl, hFront, hBack⟩ := map_split hToks
    rw [List.append_assoc]
    exact gives_power (ihBase front _ hFront (follow_cons (Nat.le_refl 4)) rfl)
      (bump_append hBump back) (ihExponent back rest hBack hFollow hBump)
  | neg h ih =>
    intro toks rest hToks hFollow hBump
    obtain ⟨⟨_, pos⟩, back, rfl, rfl, hBack⟩ := List.map_eq_cons_iff.mp hToks
    exact gives_neg (ih back rest hBack hFollow hBump) (bump_append hBump back)
  | primary h ih =>
    intro toks rest hToks hFollow hBump
    refine gives_primary (ih toks rest hToks hFollow hBump) fun t ht hMinus => ?_
    have hHead := (head_starts h hToks rest t ht).2
    exact primary_start h (hMinus ▸ hHead)
  | num =>
    intro toks rest hToks hFollow hBump
    obtain ⟨⟨_, pos⟩, back, rfl, rfl, hBack⟩ := List.map_eq_cons_iff.mp hToks
    obtain rfl := List.map_eq_nil_iff.mp hBack
    exact gives_num hBump
  | var =>
    intro toks rest hToks hFollow hBump
    obtain ⟨⟨_, pos⟩, back, rfl, rfl, hBack⟩ := List.map_eq_cons_iff.mp hToks
    obtain rfl := List.map_eq_nil_iff.mp hBack
    exact gives_ident (gives_var hFollow) hBump
  | @paren e ts h ih =>
    intro toks rest hToks hFollow hBump
    obtain ⟨⟨_, pos⟩, back, rfl, rfl, hBack⟩ := List.map_eq_cons_iff.mp hToks
    obtain ⟨front, pos', back, rfl, hFront, hNil⟩ := map_split hBack
    obtain rfl := List.map_eq_nil_iff.mp hNil
    rw [List.cons_append, List.append_assoc]
    have hInner := ih front ((.rParen, pos') :: rest) e _ hFront (follow_cons (by decide)) rfl
      (loop_stops (follow_cons (by decide)))
    exact gives_paren hInner (bump_append rfl front) hBump
  | constant =>
    intro toks rest hToks hFollow hBump
    obtain ⟨⟨_, pos⟩, back, rfl, rfl, hOpen⟩ := List.map_eq_cons_iff.mp hToks
    obtain ⟨⟨_, pos'⟩, back, rfl, rfl, hClose⟩ := List.map_eq_cons_iff.mp hOpen
    obtain ⟨⟨_, pos''⟩, back, rfl, rfl, hNil⟩ := List.map_eq_cons_iff.mp hClose
    obtain rfl := List.map_eq_nil_iff.mp hNil
    exact gives_ident (gives_constant hBump) rfl
  | @call name es ts h ih =>
    intro toks rest hToks hFollow hBump
    obtain ⟨⟨_, pos⟩, back, rfl, rfl, hOpen⟩ := List.map_eq_cons_iff.mp hToks
    obtain ⟨⟨_, pos'⟩, back, rfl, rfl, hArgs⟩ := List.map_eq_cons_iff.mp hOpen
    obtain ⟨front, pos'', back, rfl, hFront, hNil⟩ := map_split hArgs
    obtain rfl := List.map_eq_nil_iff.mp hNil
    rw [List.cons_append, List.cons_append, List.append_assoc]
    refine gives_ident (gives_call (ih front pos'' rest hFront hBump) (bump_append rfl front) ?_) rfl
    intro t ht hClose
    have hStarts := (head_starts h hFront _ t ht).1
    rw [hClose] at hStarts
    cases hStarts
  | @last e ts h ih =>
    intro toks pos rest hToks hBump
    exact gives_last (ih toks _ e _ hToks (follow_cons (by decide)) rfl
      (loop_stops (follow_cons (by decide)))) hBump
  | @more e es ts us h hMore ih ihMore =>
    intro toks pos rest hToks hBump
    obtain ⟨front, pos', back, rfl, hFront, hBack⟩ := map_split hToks
    rw [List.append_assoc]
    have hFirst := ih front ((.comma, pos') :: (back ++ (.rParen, pos) :: rest)) e _ hFront
      (follow_cons (by decide)) rfl (loop_stops (follow_cons (by decide)))
    exact gives_more hFirst (bump_append rfl back) (ihMore back pos rest hBack hBump)

/-- The parser takes any sentence of an expression for it, up to what does not continue one. -/
theorem parseExpr_sentence {e : Expr} {ts : List Tok} (h : Sentence (.level .compare e) ts)
    {toks rest : List (Tok × Nat)} (hToks : toks.map Prod.fst = ts) (hFollow : Follow 0 rest)
    (hBump : bump stop rest = .ok ()) : Gives (parseExpr number stop (toks ++ rest)) e rest :=
  h.taken toks rest e rest hToks (hFollow.mono (by decide)) hBump (loop_stops hFollow)

end Parser

end FactorForth.Correctness.LetForms
