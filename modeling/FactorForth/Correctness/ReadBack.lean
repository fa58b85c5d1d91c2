import FactorForth.Correctness.Sentences

/-! The parser finds the expressions of a text: where a stream begins with the text of an expression,
the parser reads that expression, up to spans, and stops behind it. -/

namespace FactorForth.Correctness
open FactorForth.Library FactorForth.Compiler

def noSpan : Span := ⟨⟨0, 0, 0⟩, ⟨0, 0, 0⟩⟩

def LocalDecl.bare (d : LocalDecl) : LocalDecl := ⟨d.name, noSpan⟩

def bareLiteral : Literal → Literal
  | .int v _ => .int v noSpan
  | .float v _ => .float v noSpan
  | .str v kind _ => .str v kind noSpan

/-! An expression without its spans. -/

mutual
def bareExpr : Expr → Expr
  | .lit l => .lit (bareLiteral l)
  | .wordRef name _ => .wordRef name noSpan
  | .ifElse thenBody none _ => .ifElse (bareExprs thenBody) none noSpan
  | .ifElse thenBody (some elseBody) _ =>
    .ifElse (bareExprs thenBody) (some (bareExprs elseBody)) noSpan
  | .beginUntil body _ => .beginUntil (bareExprs body) noSpan
  | .beginWhileRepeat pred body _ => .beginWhileRepeat (bareExprs pred) (bareExprs body) noSpan
  | .beginAgain body _ => .beginAgain (bareExprs body) noSpan
  | .doLoop isQdo body loopKind _ => .doLoop isQdo (bareExprs body) loopKind noSpan
  | .caseOf arms none _ => .caseOf (bareArms arms) none noSpan
  | .caseOf arms (some default) _ => .caseOf (bareArms arms) (some (bareExprs default)) noSpan
  | .tick name _ => .tick name noSpan
  | .toValue name _ => .toValue name noSpan
  | .see name _ => .see name noSpan
  | .letForm form _ => .letForm form noSpan
  | .locals names _ => .locals (names.map LocalDecl.bare) noSpan

def bareArms : List (CaseArm Expr) → List (CaseArm Expr)
  | [] => []
  | ⟨matchExpr, body, _⟩ :: arms => ⟨bareExprs matchExpr, bareExprs body, noSpan⟩ :: bareArms arms

def bareExprs : List Expr → List Expr
  | [] => []
  | e :: es => bareExpr e :: bareExprs es
end

theorem bareExpr_caseOf (arms : List (CaseArm Expr)) (default : Option (List Expr)) (span : Span) :
    bareExpr (.caseOf arms default span) =
      .caseOf (bareArms arms) (default.map bareExprs) noSpan := by
  cases default <;> rfl

theorem bareExprs_nil {es : List Expr} (h : bareExprs es = []) : es = [] := by
  cases es with
  | nil => rfl
  | cons e es => cases h

/-- No token of the stream is a comment. -/
def CommentFree (toks : List Lex.Token) : Prop := ∀ tok ∈ toks, ∃ t, tok.kind = .code t

/-- A run either reads a value and leaves a rest as described, or fails on a stream with comments. -/
def Finds {α : Type} {n : Nat} (free : Prop) (r : Except ParseError (Parsed α n))
    (Q : α → List Lex.Token → Prop) : Prop :=
  (∃ p, r = .ok p ∧ Q p.value p.rest) ∨ (∃ e, r = .error e) ∧ ¬ free

section
variable {α β : Type} {n m : Nat} {free : Prop}

theorem Finds.intro {p : Parsed α n} {Q : α → List Lex.Token → Prop} (h : Q p.value p.rest) :
    Finds free (.ok p) Q := .inl ⟨p, rfl, h⟩

/-- A run that goes on from what it has found. -/
theorem Finds.bind {r : Except ParseError (Parsed α n)} {Q : α → List Lex.Token → Prop}
    {f : Parsed α n → Except ParseError (Parsed β m)} {R : β → List Lex.Token → Prop}
    (h : Finds free r Q) (hNext : ∀ p, Q p.value p.rest → Finds free (f p) R) :
    Finds free (r >>= f) R := by
  rcases h with ⟨p, rfl, hQ⟩ | ⟨⟨e, rfl⟩, hFree⟩
  · exact hNext p hQ
  · exact .inr ⟨⟨e, rfl⟩, hFree⟩

theorem Finds.map {r : Except ParseError (Parsed α n)} {Q : α → List Lex.Token → Prop}
    {f : Parsed α n → Parsed β m} {R : β → List Lex.Token → Prop}
    (h : Finds free r Q) (hNext : ∀ p, Q p.value p.rest → R (f p).value (f p).rest) :
    Finds free (r.map f) R := by
  rcases h with ⟨p, rfl, hQ⟩ | ⟨⟨e, rfl⟩, hFree⟩
  · exact .inl ⟨f p, rfl, hNext p hQ⟩
  · exact .inr ⟨⟨e, rfl⟩, hFree⟩

theorem Finds.weaken {r : Except ParseError (Parsed α n)} {Q : α → List Lex.Token → Prop}
    (h : Finds free r Q) (hLe : n ≤ m) : Finds free (r.map fun p => p.weaken hLe) Q :=
  h.map fun _ hQ => hQ

theorem Finds.value {r : Except ParseError (Parsed α n)} {Q : α → List Lex.Token → Prop}
    {f : α → β} {R : β → List Lex.Token → Prop} (h : Finds free r Q)
    (hNext : ∀ a rest, Q a rest → R (f a) rest) : Finds free (r.map fun p => p.map f) R :=
  h.map fun p hQ => hNext p.value p.rest hQ

/-- What stands behind a text in a stream. -/
structure Behind (free : Prop) (more : List Lex.Tok) (toks : List Lex.Token) : Prop where
  codes : codes toks = more
  comments : free → CommentFree toks

theorem nextCode_behind {t : Lex.Tok} {ts : List Lex.Tok} {toks : List Lex.Token}
    (h : Behind free (t :: ts) toks) :
    ∃ span rest hShort, nextCode toks = some ⟨⟨t, span⟩, rest, hShort⟩ ∧ Behind free ts rest := by
  obtain ⟨hCodes, hFree⟩ := h
  induction toks with
  | nil => cases hCodes
  | cons tok toks ih =>
    have hTail : free → CommentFree toks := fun hf tok' hMem => hFree hf tok' (by simp [hMem])
    obtain ⟨kind, span⟩ := tok
    cases kind with
    | code u =>
      rw [codes_code] at hCodes
      obtain ⟨rfl, hRest⟩ := List.cons.inj hCodes
      exact ⟨span, toks, Nat.lt_succ_self _, rfl, hRest, hTail⟩
    | lineComment text =>
      obtain ⟨sp, rest, hShort, hNext, hRest⟩ := ih hCodes hTail
      exact ⟨sp, rest, Nat.lt_succ_of_lt hShort, by rw [nextCode, hNext]; rfl, hRest⟩
    | blockComment text =>
      obtain ⟨sp, rest, hShort, hNext, hRest⟩ := ih hCodes hTail
      exact ⟨sp, rest, Nat.lt_succ_of_lt hShort, by rw [nextCode, hNext]; rfl, hRest⟩

theorem nameAfter_finds (error : ParseError) {w : String} {ts : List Lex.Tok}
    {toks : List Lex.Token} (h : Behind free (.word w :: ts) toks) :
    Finds free (nameAfter error toks) fun name rest => name.text = w ∧ Behind free ts rest := by
  obtain ⟨hCodes, hFree⟩ := h
  cases toks with
  | nil => cases hCodes
  | cons tok toks =>
    have hTail : free → CommentFree toks := fun hf tok' hMem => hFree hf tok' (by simp [hMem])
    have hHead : free → ∃ t, tok.kind = .code t := fun hf => hFree hf tok (by simp)
    obtain ⟨kind, span⟩ := tok
    cases kind with
    | code u =>
      rw [codes_code] at hCodes
      obtain ⟨rfl, hRest⟩ := List.cons.inj hCodes
      exact .intro ⟨rfl, hRest, hTail⟩
    | lineComment text =>
      refine .inr ⟨⟨error, rfl⟩, fun hf => ?_⟩
      obtain ⟨t, ht⟩ := hHead hf
      cases ht
    | blockComment text =>
      refine .inr ⟨⟨error, rfl⟩, fun hf => ?_⟩
      obtain ⟨t, ht⟩ := hHead hf
      cases ht

theorem parseLocalsBlock_finds (openSpan : Span) {names : List LocalDecl} {ts more : List Lex.Tok}
    (hText : NamesText names ts) {toks : List Lex.Token} (h : Behind free (ts ++ more) toks) :
    Finds free (parseLocalsBlock openSpan toks) fun found rest =>
      found.map LocalDecl.bare = names.map LocalDecl.bare ∧ NamesText found ts ∧
        Behind free more rest := by
  induction hText generalizing toks with
  | stop =>
    obtain ⟨span, rest, hShort, hNext, hRest⟩ := nextCode_behind h
    rw [parseLocalsBlock.eq_def, hNext]
    dsimp only
    rw [if_pos rfl]
    exact .intro ⟨rfl, .stop, hRest⟩
  | @name n sp names ts hName hNames ih =>
    obtain ⟨span, rest, hShort, hNext, hRest⟩ := nextCode_behind h
    rw [parseLocalsBlock.eq_def, hNext]
    dsimp only
    simp only [List.mem_cons, List.not_mem_nil, or_false, not_or] at hName
    obtain ⟨hStop, hSemi, hColon, hOpen⟩ := hName
    rw [if_neg hStop, if_neg (by simp [hSemi, hColon, hOpen])]
    refine (ih hRest).map ?_
    rintro p ⟨hBare, hFound, hBehind⟩
    refine ⟨?_, .name (by simp [hStop, hSemi, hColon, hOpen]) hFound, hBehind⟩
    show LocalDecl.bare ⟨n, span⟩ :: p.value.map LocalDecl.bare = _
    rw [hBare]
    rfl

/-- A token that closes no construct and ends no definition. -/
def Starts (t : Lex.Tok) : Prop := ∀ w, t = .word w → lower w ∉ strayWords ∧ w ≠ ";"

theorem starts_keyword {k c : String} (hk : lower k = c) (hStray : c ∉ strayWords)
    (hSemi : c ≠ ";") : Starts (.word k) := by
  intro w hw
  obtain rfl := Lex.Tok.word.inj hw
  refine ⟨hk ▸ hStray, ?_⟩
  rintro rfl
  exact hSemi hk.symm

end

section
variable {free drops : Prop} {parseLet : String → Except String LetLang.LetForm}

/-- The parser finds one expression at the head of a stream. -/
def FindsExpr (free drops : Prop) (parseLet : String → Except String LetLang.LetForm) (e : Expr)
    (ts more : List Lex.Tok) (toks : List Lex.Token) : Prop :=
  ∃ t span rest hShort, nextCode toks = some ⟨⟨t, span⟩, rest, hShort⟩ ∧ Starts t ∧
    Finds free (exprOne parseLet t span rest) fun found rest' =>
      bareExpr found = bareExpr e ∧ ExprText drops parseLet found ts ∧ Behind free more rest'

/-- The parser finds a block up to the word that closes it. -/
def FindsBlock (free drops : Prop) (parseLet : String → Except String LetLang.LetForm)
    (es : List Expr) (ts more : List Lex.Tok) (w : String)
    (r : Except ParseError (Parsed Block n)) : Prop :=
  Finds free r fun b rest => b.word = lower w ∧ bareExprs b.body = bareExprs es ∧
    ExprsText drops parseLet b.body ts ∧ Behind free more rest

/-! The branches of the expression parser. -/

section
variable {k : String} {span : Span} {rest : List Lex.Token}

theorem exprOne_if (hk : lower k = "if") : exprOne parseLet (.word k) span rest =
    (parseIf parseLet span rest).map fun p => p.weaken (Nat.le_succ _) := by
  rw [exprOne.eq_def]
  dsimp only
  rw [hk]
  rfl

theorem exprOne_begin (hk : lower k = "begin") : exprOne parseLet (.word k) span rest =
    (parseBegin parseLet span rest).map fun p => p.weaken (Nat.le_succ _) := by
  rw [exprOne.eq_def]
  dsimp only
  rw [hk]
  rfl

theorem exprOne_do {isQdo : Bool} (hk : lower k = if isQdo then "?do" else "do") :
    exprOne parseLet (.word k) span rest =
      (parseDo parseLet span isQdo rest).map fun p => p.weaken (Nat.le_succ _) := by
  rw [exprOne.eq_def]
  dsimp only
  rw [hk]
  cases isQdo <;> rfl

theorem exprOne_case (hk : lower k = "case") : exprOne parseLet (.word k) span rest =
    ((parseCase parseLet span rest).map fun p => p.map fun c =>
      Expr.caseOf c.arms c.default ⟨span.start, c.stop.stop⟩).map fun p =>
        p.weaken (Nat.le_succ _) := by
  rw [exprOne.eq_def]
  dsimp only
  rw [hk]
  rfl

theorem exprOne_tick (hk : lower k = "'") : exprOne parseLet (.word k) span rest =
    (parseNamed "'" span .tick rest).map fun p => p.weaken (Nat.le_succ _) := by
  rw [exprOne.eq_def]
  dsimp only
  rw [hk]
  rfl

theorem exprOne_to (hk : lower k = "to") : exprOne parseLet (.word k) span rest =
    (parseNamed "TO" span .toValue rest).map fun p => p.weaken (Nat.le_succ _) := by
  rw [exprOne.eq_def]
  dsimp only
  rw [hk]
  rfl

theorem exprOne_see (hk : lower k = "see") : exprOne parseLet (.word k) span rest =
    (parseNamed "SEE" span .see rest).map fun p => p.weaken (Nat.le_succ _) := by
  rw [exprOne.eq_def]
  dsimp only
  rw [hk]
  rfl

theorem exprOne_locals (hk : lower k = "\x7b:") : exprOne parseLet (.word k) span rest =
    ((parseLocalsBlock span rest).map fun p => p.map fun names => Expr.locals names span).map fun p =>
      p.weaken (Nat.le_succ _) := by
  rw [exprOne.eq_def]
  dsimp only
  rw [hk]
  rfl

theorem exprOne_word (h : lower k ∉ controlWords) : exprOne parseLet (.word k) span rest =
    .ok ⟨.wordRef k span, rest, Nat.lt_succ_self _⟩ := by
  simp only [controlWords, List.mem_append, List.mem_cons, List.not_mem_nil, or_false, not_or] at h
  obtain ⟨⟨hIf, hBegin, hDo, hQdo, hCase, hTick, hTo, hSee, hOpen⟩, hStray⟩ := h
  have hStray' : strayWords.contains (lower k) = false := by simpa using hStray
  rw [exprOne.eq_def]
  dsimp only
  split
  · rename_i hEq
    exact absurd hEq hIf
  · rename_i hEq
    exact absurd hEq hBegin
  · rename_i hEq
    exact absurd hEq hDo
  · rename_i hEq
    exact absurd hEq hQdo
  · rename_i hEq
    exact absurd hEq hCase
  · rename_i hEq
    exact absurd hEq hTick
  · rename_i hEq
    exact absurd hEq hTo
  · rename_i hEq
    exact absurd hEq hSee
  · rename_i hEq
    exact absurd hEq hOpen
  · rw [hStray', if_neg Bool.false_ne_true]

end

/-- An expression of one token. -/
theorem findsExpr_leaf {e : Expr} {t : Lex.Tok} {more : List Lex.Tok} {toks : List Lex.Token}
    (h : Behind free ([t] ++ more) toks) (hStart : Starts t)
    (hLeaf : ∀ span rest, ∃ found hShort, exprOne parseLet t span rest = .ok ⟨found, rest, hShort⟩ ∧
      bareExpr found = bareExpr e ∧ ExprText drops parseLet found [t]) :
    FindsExpr free drops parseLet e [t] more toks := by
  obtain ⟨span, rest, hShort, hNext, hRest⟩ := nextCode_behind h
  obtain ⟨found, hShort', hOk, hBare, hFound⟩ := hLeaf span rest
  refine ⟨t, span, rest, hShort, hNext, hStart, ?_⟩
  rw [hOk]
  exact .intro ⟨hBare, hFound, hRest⟩

/-- An expression that a keyword opens. -/
theorem findsExpr_keyword {e : Expr} {k c : String} {ts more : List Lex.Tok} {toks : List Lex.Token}
    (h : Behind free (.word k :: (ts ++ more)) toks) (hk : lower k = c) (hStray : c ∉ strayWords)
    (hSemi : c ≠ ";") {run : Span → (rest : List Lex.Token) → Except ParseError (Parsed Expr rest.length)}
    (hRun : ∀ span rest, exprOne parseLet (.word k) span rest =
      (run span rest).map fun p => p.weaken (Nat.le_succ _))
    (hFinds : ∀ span rest, Behind free (ts ++ more) rest →
      Finds free (run span rest) fun found rest' => bareExpr found = bareExpr e ∧
        ExprText drops parseLet found (.word k :: ts) ∧ Behind free more rest') :
    FindsExpr free drops parseLet e (.word k :: ts) more toks := by
  obtain ⟨span, rest, hShort, hNext, hRest⟩ := nextCode_behind h
  refine ⟨.word k, span, rest, hShort, hNext, starts_keyword hk hStray hSemi, ?_⟩
  rw [hRun]
  exact (hFinds span rest hRest).weaken (Nat.le_succ _)

/-- A parsing word takes the name behind it. -/
theorem parseNamed_finds {e : Expr} {k n : String} {more : List Lex.Tok} {keyword : String}
    {span : Span} {mk : String → Span → Expr} {rest : List Lex.Token}
    (h : Behind free ([.word n] ++ more) rest) (hBare : ∀ span, bareExpr (mk n span) = bareExpr e)
    (hText : ∀ span, ExprText drops parseLet (mk n span) [.word k, .word n]) :
    Finds free (parseNamed keyword span mk rest) fun found rest' => bareExpr found = bareExpr e ∧
      ExprText drops parseLet found [.word k, .word n] ∧ Behind free more rest' := by
  have hName := nameAfter_finds (.expectedDefiningName keyword span) h
  apply hName.map
  rintro p ⟨hEq, hBehind⟩
  refine ⟨?_, ?_, hBehind⟩
  · show bareExpr (mk p.value.text _) = _
    rw [hEq]
    exact hBare _
  · show ExprText drops parseLet (mk p.value.text _) _
    rw [hEq]
    exact hText _

/-- A block whose expressions the parser finds one by one. -/
theorem findsBlock_cons {e : Expr} {es : List Expr} {ts us more : List Lex.Tok} {w : String}
    {toks : List Lex.Token} {opener : String} {openedAt : Span} {terminators : List String}
    (hStray : ∀ x ∈ terminators, x ∈ strayWords)
    (hHead : FindsExpr free drops parseLet e ts (us ++ .word w :: more) toks)
    (hTail : ∀ toks', Behind free (us ++ .word w :: more) toks' →
      FindsBlock free drops parseLet es us more w
        (parseBlockUntil parseLet opener openedAt terminators toks')) :
    FindsBlock free drops parseLet (e :: es) (ts ++ us) more w
      (parseBlockUntil parseLet opener openedAt terminators toks) := by
  obtain ⟨t, span, rest, hShort, hNext, hStart, hFinds⟩ := hHead
  unfold FindsBlock
  rw [parseBlockUntil.eq_def, hNext]
  dsimp only
  have hBody : Finds free (do
      let e ← exprOne parseLet t span rest
      have he : e.rest.length < toks.length := Nat.lt_of_lt_of_le e.shorter hShort
      let b ← parseBlockUntil parseLet opener openedAt terminators e.rest
      return (⟨⟨e.value :: b.value.body, b.value.word, b.value.span⟩, b.rest,
        Nat.lt_trans b.shorter he⟩ : Parsed Block toks.length))
      fun b rest => b.word = lower w ∧ bareExprs b.body = bareExprs (e :: es) ∧
        ExprsText drops parseLet b.body (ts ++ us) ∧ Behind free more rest := by
    apply hFinds.bind
    rintro p ⟨hBare, hText, hBehind⟩
    apply (hTail p.rest hBehind).bind
    rintro b ⟨hWord, hBares, hTexts, hMore⟩
    refine .intro ⟨hWord, ?_, .cons hText hTexts, hMore⟩
    rw [bareExprs, bareExprs, hBare, hBares]
  split
  · rename_i v
    obtain ⟨hOpen, hSemi⟩ := hStart v rfl
    have hTerm : terminators.contains (lower v) = false := by
      simp only [List.contains_eq_mem, decide_eq_false_iff_not]
      exact fun hMem => hOpen (hStray _ hMem)
    rw [hTerm, if_neg Bool.false_ne_true, if_neg hSemi]
    exact hBody
  · exact hBody

theorem findsBlock_nil {more : List Lex.Tok} {w : String} {toks : List Lex.Token} {opener : String}
    {openedAt : Span} {terminators : List String} (hTerm : lower w ∈ terminators)
    (h : Behind free (.word w :: more) toks) :
    FindsBlock free drops parseLet [] [] more w
      (parseBlockUntil parseLet opener openedAt terminators toks) := by
  obtain ⟨span, rest, hShort, hNext, hRest⟩ := nextCode_behind h
  unfold FindsBlock
  rw [parseBlockUntil.eq_def, hNext]
  dsimp only
  have hContains : terminators.contains (lower w) = true := by simpa using hTerm
  rw [hContains, if_pos rfl]
  exact .intro ⟨rfl, rfl, .nil, hRest⟩

/-! What the parser finds of each kind of text, from what it finds of the parts. -/

variable (free drops parseLet) in
def ExprFinds (e : Expr) (ts : List Lex.Tok) : Prop :=
  ∀ more toks, Behind free (ts ++ more) toks → FindsExpr free drops parseLet e ts more toks

variable (free drops parseLet) in
def ExprsFind (es : List Expr) (ts : List Lex.Tok) : Prop :=
  ∀ (opener : String) (openedAt : Span) (terminators : List String) (w : String) more toks,
    (∀ x ∈ terminators, x ∈ strayWords) → lower w ∈ terminators →
      Behind free (ts ++ .word w :: more) toks →
        FindsBlock free drops parseLet es ts more w
          (parseBlockUntil parseLet opener openedAt terminators toks)

variable (free drops parseLet) in
def CaseFinds (arms : List (CaseArm Expr)) (default : Option (List Expr)) (ts : List Lex.Tok) : Prop :=
  ∀ caseSpan more toks, Behind free (ts ++ more) toks →
    Finds free (parseCase parseLet caseSpan toks) fun c rest =>
      bareArms c.arms = bareArms arms ∧ c.default.map bareExprs = default.map bareExprs ∧
        CaseText drops parseLet c.arms c.default ts ∧ Behind free more rest

section
variable {k t w : String} {us vs : List Lex.Tok} {sp : Span}

theorem word_finds (hWord : lower w ∉ controlWords) (hStop : w ≠ ";") :
    ExprFinds free drops parseLet (.wordRef w sp) [.word w] := by
  intro more toks h
  have hStart : Starts (.word w) := by
    intro v hv
    obtain rfl := Lex.Tok.word.inj hv
    exact ⟨fun hMem => hWord (List.mem_append_right _ hMem), hStop⟩
  exact findsExpr_leaf h hStart fun span rest =>
    ⟨.wordRef w span, Nat.lt_succ_self _, exprOne_word hWord, rfl, .word hWord hStop⟩

theorem letForm_finds {text : String} {form : LetLang.LetForm} (hForm : parseLet text = .ok form) :
    ExprFinds free drops parseLet (.letForm form sp) [.letBlock text] := by
  intro more toks h
  refine findsExpr_leaf h (by simp [Starts]) fun span rest =>
    ⟨.letForm form span, Nat.lt_succ_self _, ?_, rfl, .letForm hForm⟩
  rw [exprOne.eq_def]
  dsimp only
  rw [hForm]

theorem locals_finds {names : List LocalDecl} (hk : lower k = "\x7b:") (hNames : NamesText names us) :
    ExprFinds free drops parseLet (.locals names sp) (.word k :: us) := by
  intro more toks h
  refine findsExpr_keyword h hk (by decide) (by decide) (fun _ _ => exprOne_locals hk) ?_
  intro span rest h'
  apply (parseLocalsBlock_finds span hNames h').value
  rintro found rest' ⟨hBare, hFound, hBehind⟩
  exact ⟨by rw [bareExpr, bareExpr, hBare], .locals hk hFound, hBehind⟩

theorem ifThen_finds {thenBody : List Expr} (hk : lower k = "if") (ht : lower t = "then")
    (hThen : ExprsFind free drops parseLet thenBody us) :
    ExprFinds free drops parseLet (.ifElse thenBody none sp) (.word k :: us ++ [.word t]) := by
  intro more toks h
  refine findsExpr_keyword h hk (by decide) (by decide) (fun _ _ => exprOne_if hk) ?_
  intro span rest h'
  have hText : Behind free (us ++ .word t :: more) rest := by simpa using h'
  rw [parseIf.eq_def]
  apply (hThen "if" span ["else", "then"] t _ _ (by decide) (by simp [ht]) hText).bind
  rintro b ⟨hWord, hBare, hBody, hBehind⟩
  have hNotElse : ¬ b.value.word = "else" := by
    rw [hWord, ht]
    decide
  rw [if_neg hNotElse]
  exact .intro ⟨by rw [bareExpr, bareExpr, hBare], .ifThen hk ht hBody, hBehind⟩

theorem ifElse_finds {e : String} {thenBody elseBody : List Expr} (hk : lower k = "if")
    (he : lower e = "else") (ht : lower t = "then")
    (hThen : ExprsFind free drops parseLet thenBody us)
    (hElse : ExprsFind free drops parseLet elseBody vs) :
    ExprFinds free drops parseLet (.ifElse thenBody (some elseBody) sp)
      (.word k :: us ++ .word e :: vs ++ [.word t]) := by
  intro more toks h
  rw [List.append_assoc, List.cons_append, List.cons_append] at h
  refine findsExpr_keyword (by simpa using h) hk (by decide) (by decide) (fun _ _ => exprOne_if hk) ?_
  intro span rest h'
  have hText : Behind free (us ++ .word e :: (vs ++ .word t :: more)) rest := by simpa using h'
  rw [parseIf.eq_def]
  apply (hThen "if" span ["else", "then"] e _ _ (by decide) (by simp [he]) hText).bind
  rintro b ⟨hWord, hBare, hBody, hBehind⟩
  rw [if_pos (hWord.trans he)]
  apply (hElse "else" b.value.span ["then"] t _ _ (by decide) (by simp [ht]) hBehind).bind
  rintro b' ⟨hWord', hBare', hBody', hBehind'⟩
  refine .intro ⟨by rw [bareExpr, bareExpr, hBare, hBare'], ?_, hBehind'⟩
  exact .ifElse hk he ht hBody hBody'

theorem beginUntil_finds {body : List Expr} (hk : lower k = "begin") (ht : lower t = "until")
    (hBody : ExprsFind free drops parseLet body us) :
    ExprFinds free drops parseLet (.beginUntil body sp) (.word k :: us ++ [.word t]) := by
  intro more toks h
  refine findsExpr_keyword h hk (by decide) (by decide) (fun _ _ => exprOne_begin hk) ?_
  intro span rest h'
  have hText : Behind free (us ++ .word t :: more) rest := by simpa using h'
  rw [parseBegin.eq_def]
  apply (hBody "begin" span ["until", "again", "while"] t _ _ (by decide) (by simp [ht]) hText).bind
  rintro b ⟨hWord, hBare, hFound, hBehind⟩
  dsimp only
  rw [hWord, ht]
  exact .intro ⟨by rw [bareExpr, bareExpr, hBare], .beginUntil hk ht hFound, hBehind⟩

theorem beginAgain_finds {body : List Expr} (hk : lower k = "begin") (ht : lower t = "again")
    (hBody : ExprsFind free drops parseLet body us) :
    ExprFinds free drops parseLet (.beginAgain body sp) (.word k :: us ++ [.word t]) := by
  intro more toks h
  refine findsExpr_keyword h hk (by decide) (by decide) (fun _ _ => exprOne_begin hk) ?_
  intro span rest h'
  have hText : Behind free (us ++ .word t :: more) rest := by simpa using h'
  rw [parseBegin.eq_def]
  apply (hBody "begin" span ["until", "again", "while"] t _ _ (by decide) (by simp [ht]) hText).bind
  rintro b ⟨hWord, hBare, hFound, hBehind⟩
  dsimp only
  rw [hWord, ht]
  exact .intro ⟨by rw [bareExpr, bareExpr, hBare], .beginAgain hk ht hFound, hBehind⟩

theorem beginWhileRepeat_finds {pred body : List Expr} (hk : lower k = "begin")
    (hw : lower w = "while") (ht : lower t = "repeat")
    (hPred : ExprsFind free drops parseLet pred us)
    (hBody : ExprsFind free drops parseLet body vs) :
    ExprFinds free drops parseLet (.beginWhileRepeat pred body sp)
      (.word k :: us ++ .word w :: vs ++ [.word t]) := by
  intro more toks h
  rw [List.append_assoc, List.cons_append, List.cons_append] at h
  refine findsExpr_keyword (by simpa using h) hk (by decide) (by decide)
    (fun _ _ => exprOne_begin hk) ?_
  intro span rest h'
  have hText : Behind free (us ++ .word w :: (vs ++ .word t :: more)) rest := by simpa using h'
  rw [parseBegin.eq_def]
  apply (hPred "begin" span ["until", "again", "while"] w _ _ (by decide) (by simp [hw]) hText).bind
  rintro b ⟨hWord, hBare, hFound, hBehind⟩
  dsimp only
  rw [hWord, hw]
  apply (hBody "while" b.value.span ["repeat"] t _ _ (by decide) (by simp [ht]) hBehind).bind
  rintro b' ⟨hWord', hBare', hFound', hBehind'⟩
  refine .intro ⟨by rw [bareExpr, bareExpr, hBare, hBare'], ?_, hBehind'⟩
  exact .beginWhileRepeat hk hw ht hFound hFound'

theorem doLoop_finds {isQdo : Bool} {loopKind : LoopKind} {body : List Expr}
    (hk : lower k = if isQdo then "?do" else "do")
    (ht : lower t = match loopKind with | .plus1 => "loop" | .plusN => "+loop")
    (hBody : ExprsFind free drops parseLet body us) :
    ExprFinds free drops parseLet (.doLoop isQdo body loopKind sp) (.word k :: us ++ [.word t]) := by
  intro more toks h
  refine findsExpr_keyword h hk (by cases isQdo <;> decide) (by cases isQdo <;> decide)
    (fun _ _ => exprOne_do hk) ?_
  intro span rest h'
  have hText : Behind free (us ++ .word t :: more) rest := by simpa using h'
  have hTerm : lower t ∈ ["loop", "+loop"] := by cases loopKind <;> simp [ht]
  rw [parseDo.eq_def]
  apply (hBody (if isQdo then "?do" else "do") span ["loop", "+loop"] t _ _ (by decide) hTerm
    hText).bind
  rintro b ⟨hWord, hBare, hFound, hBehind⟩
  have hKind : (if b.value.word = "loop" then LoopKind.plus1 else LoopKind.plusN) = loopKind := by
    rw [hWord, ht]
    cases loopKind <;> rfl
  refine .intro ⟨?_, ?_, hBehind⟩
  · rw [bareExpr, bareExpr, hBare, hKind]
  · rw [hKind]
    exact .doLoop hk ht hFound

theorem caseOf_finds {arms : List (CaseArm Expr)} {default : Option (List Expr)}
    (hk : lower k = "case") (hCase : CaseFinds free drops parseLet arms default us) :
    ExprFinds free drops parseLet (.caseOf arms default sp) (.word k :: us) := by
  intro more toks h
  refine findsExpr_keyword h hk (by decide) (by decide) (fun _ _ => exprOne_case hk) ?_
  intro span rest h'
  apply (hCase span more rest h').value
  rintro c rest' ⟨hArms, hDefault, hFound, hBehind⟩
  exact ⟨by rw [bareExpr_caseOf, bareExpr_caseOf, hArms, hDefault], .caseOf hk hFound, hBehind⟩

/-- Expressions of a CASE up to one of its dividing words. -/
theorem caseHead_finds {es : List Expr} (hFinds : ExprsFind free drops parseLet es us)
    (hw : lower w ∈ ["of", "default", "other", "endcase"]) {caseSpan : Span} {more : List Lex.Tok}
    {toks : List Lex.Token} (h : Behind free (us ++ .word w :: more) toks) :
    FindsBlock free drops parseLet es us more w
      (parseBlockUntil parseLet "case" caseSpan ["of", "default", "other", "endcase"] toks) :=
  hFinds _ _ _ w more toks (by decide) hw h

theorem arm_finds {matchExpr body : List Expr} {arms : List (CaseArm Expr)}
    {default : Option (List Expr)} {o e : String} {ts : List Lex.Tok} (ho : lower o = "of")
    (he : lower e = "endof") (hMatch : ExprsFind free drops parseLet matchExpr ts)
    (hBody : ExprsFind free drops parseLet body us)
    (hArms : CaseFinds free drops parseLet arms default vs) :
    CaseFinds free drops parseLet (⟨matchExpr, body, sp⟩ :: arms) default
      (ts ++ .word o :: us ++ .word e :: vs) := by
  intro caseSpan more toks h
  have hText : Behind free (ts ++ .word o :: (us ++ .word e :: (vs ++ more))) toks := by simpa using h
  rw [parseCase.eq_def]
  apply (caseHead_finds hMatch (by simp [ho]) hText).bind
  rintro b ⟨hWord, hBare, hFound, hBehind⟩
  dsimp only
  rw [hWord, ho]
  apply (hBody "of" b.value.span ["endof"] e _ _ (by decide) (by simp [he]) hBehind).bind
  rintro a ⟨hWord', hBare', hFound', hBehind'⟩
  apply (hArms caseSpan more a.rest hBehind').bind
  rintro c ⟨hBareArms, hDefault, hFoundCase, hMore⟩
  refine .intro ⟨?_, hDefault, .arm ho he hFound hFound' hFoundCase, hMore⟩
  rw [bareArms, bareArms, hBare, hBare', hBareArms]

theorem noExprs_find : ExprsFind free drops parseLet [] [] :=
  fun _ _ _ _ _ _ _ hTerm h => findsBlock_nil hTerm h

theorem exprs_find {e : Expr} {es : List Expr} (hHead : ExprFinds free drops parseLet e us)
    (hTail : ExprsFind free drops parseLet es vs) :
    ExprsFind free drops parseLet (e :: es) (us ++ vs) := by
  intro opener openedAt terminators w more toks hStray hTerm h
  rw [List.append_assoc] at h
  exact findsBlock_cons hStray (hHead _ toks h) fun toks' h' =>
    hTail opener openedAt terminators w more toks' hStray hTerm h'

theorem endcase_finds (hk : lower k = "endcase") :
    CaseFinds free drops parseLet [] none [.word k] := by
  intro caseSpan more toks h
  have hNone : ExprsFind free drops parseLet [] [] := noExprs_find
  rw [parseCase.eq_def]
  apply (caseHead_finds hNone (by simp [hk]) h).bind
  rintro b ⟨hWord, hBare, hFound, hBehind⟩
  dsimp only
  rw [hWord, hk]
  have hNil : b.value.body = [] := bareExprs_nil hBare
  refine .intro ⟨rfl, ?_, ?_, hBehind⟩
  · rw [hNil]
    rfl
  · rw [hNil]
    exact .endcase hk

theorem implicit_finds {default : List Expr} (hk : lower k = "endcase") (hNe : default ≠ [])
    (hDefault : ExprsFind free drops parseLet default us) :
    CaseFinds free drops parseLet [] (some default) (us ++ [.word k]) := by
  intro caseSpan more toks h
  have hText : Behind free (us ++ .word k :: more) toks := by simpa using h
  rw [parseCase.eq_def]
  apply (caseHead_finds hDefault (by simp [hk]) hText).bind
  rintro b ⟨hWord, hBare, hFound, hBehind⟩
  dsimp only
  rw [hWord, hk]
  have hFull : b.value.body ≠ [] := by
    intro hNil
    rw [hNil] at hBare
    exact hNe (bareExprs_nil hBare.symm)
  have hEmpty : ¬ b.value.body.isEmpty = true := by simpa using hFull
  refine .intro ⟨rfl, ?_, ?_, hBehind⟩
  · show Option.map bareExprs (if b.value.body.isEmpty = true then none else some b.value.body) = _
    rw [if_neg hEmpty, Option.map_some, hBare]
    rfl
  · show CaseText _ _ [] (if b.value.body.isEmpty = true then none else some b.value.body) _
    rw [if_neg hEmpty]
    exact .implicit hk hFull hFound

theorem default_finds {dropped default : List Expr} (hw : lower w = "default" ∨ lower w = "other")
    (hk : lower k = "endcase") (hDrop : drops ∨ dropped = [])
    (hDropped : ExprsFind free drops parseLet dropped us)
    (hDefault : ExprsFind free drops parseLet default vs) :
    CaseFinds free drops parseLet [] (some default) (us ++ .word w :: vs ++ [.word k]) := by
  intro caseSpan more toks h
  have hText : Behind free (us ++ .word w :: (vs ++ .word k :: more)) toks := by simpa using h
  have hMem : lower w ∈ ["of", "default", "other", "endcase"] := by
    rcases hw with hw | hw <;> simp [hw]
  rw [parseCase.eq_def]
  apply (caseHead_finds hDropped hMem hText).bind
  rintro b ⟨hWord, hBare, hFound, hBehind⟩
  have hDrop' : drops ∨ b.value.body = [] := by
    refine hDrop.imp id fun hNil => ?_
    rw [hNil] at hBare
    exact bareExprs_nil hBare
  have hRest : ∀ opener : String, Finds free
      (parseBlockUntil parseLet opener b.value.span ["endcase"] b.rest >>= fun d =>
        .ok (⟨⟨[], some d.value.body, d.value.span⟩, d.rest, Nat.lt_trans d.shorter b.shorter⟩ :
          Parsed CaseParts toks.length))
      fun c rest => bareArms c.arms = bareArms [] ∧
        c.default.map bareExprs = Option.map bareExprs (some default) ∧
          CaseText drops parseLet c.arms c.default (us ++ .word w :: vs ++ [.word k]) ∧
            Behind free more rest := by
    intro opener
    apply (hDefault opener b.value.span ["endcase"] k _ _ (by decide) (by simp [hk]) hBehind).bind
    rintro d ⟨hWord', hBare', hFound', hBehind'⟩
    refine .intro ⟨rfl, ?_, .default hw hk hDrop' hFound hFound', hBehind'⟩
    rw [Option.map_some, Option.map_some, hBare']
  dsimp only
  rcases hw with hw | hw
  · rw [hWord, hw]
    exact hRest "default"
  · rw [hWord, hw]
    exact hRest "other"

end

/-- The parser finds every text. -/
theorem exprText_finds {e : Expr} {ts : List Lex.Tok} (h : ExprText drops parseLet e ts) :
    ExprFinds free drops parseLet e ts := by
  refine @ExprText.rec drops parseLet (fun e ts _ => ExprFinds free drops parseLet e ts)
    (fun arms default ts _ => CaseFinds free drops parseLet arms default ts)
    (fun es ts _ => ExprsFind free drops parseLet es ts)
    ?int ?float ?str ?letForm ?word ?tick ?toValue ?see ?locals ?ifThen ?ifElse ?beginUntil
    ?beginAgain ?beginWhileRepeat ?doLoop ?caseOf ?arm ?endcase ?implicit ?default ?nil ?cons e ts h
  case int =>
    intro v base raw sp more toks h
    exact findsExpr_leaf h (by simp [Starts]) fun span rest =>
      ⟨.lit (.int v span), Nat.lt_succ_self _, by rw [exprOne.eq_def], rfl, .int⟩
  case float =>
    intro v raw sp more toks h
    exact findsExpr_leaf h (by simp [Starts]) fun span rest =>
      ⟨.lit (.float v span), Nat.lt_succ_self _, by rw [exprOne.eq_def], rfl, .float⟩
  case str =>
    intro v kind sp more toks h
    exact findsExpr_leaf h (by simp [Starts]) fun span rest =>
      ⟨.lit (.str v kind span), Nat.lt_succ_self _, by rw [exprOne.eq_def], rfl, .str⟩
  case letForm => exact letForm_finds
  case word => exact word_finds
  case tick =>
    intro k n sp hk more toks h
    exact findsExpr_keyword h hk (by decide) (by decide) (fun _ _ => exprOne_tick hk) fun _ _ h' =>
      parseNamed_finds h' (fun _ => rfl) fun _ => .tick hk
  case toValue =>
    intro k n sp hk more toks h
    exact findsExpr_keyword h hk (by decide) (by decide) (fun _ _ => exprOne_to hk) fun _ _ h' =>
      parseNamed_finds h' (fun _ => rfl) fun _ => .toValue hk
  case see =>
    intro k n sp hk more toks h
    exact findsExpr_keyword h hk (by decide) (by decide) (fun _ _ => exprOne_see hk) fun _ _ h' =>
      parseNamed_finds h' (fun _ => rfl) fun _ => .see hk
  case locals => exact locals_finds
  case ifThen => exact fun hk ht _ hThen => ifThen_finds hk ht hThen
  case ifElse => exact fun hk he ht _ _ hThen hElse => ifElse_finds hk he ht hThen hElse
  case beginUntil => exact fun hk ht _ hBody => beginUntil_finds hk ht hBody
  case beginAgain => exact fun hk ht _ hBody => beginAgain_finds hk ht hBody
  case beginWhileRepeat =>
    exact fun hk hw ht _ _ hPred hBody => beginWhileRepeat_finds hk hw ht hPred hBody
  case doLoop => exact fun hk ht _ hBody => doLoop_finds hk ht hBody
  case caseOf => exact fun hk _ hCase => caseOf_finds hk hCase
  case arm => exact fun ho he _ _ _ hMatch hBody hArms => arm_finds ho he hMatch hBody hArms
  case endcase => exact endcase_finds
  case implicit => exact fun hk hNe _ hDefault => implicit_finds hk hNe hDefault
  case default =>
    exact fun hw hk hDrop _ _ hDropped hDefault => default_finds hw hk hDrop hDropped hDefault
  case nil => exact noExprs_find
  case cons => exact fun _ _ hHead hTail => exprs_find hHead hTail

/-! Bodies. -/

theorem exprText_head {e : Expr} {ts : List Lex.Tok} (h : ExprText drops parseLet e ts) :
    ∃ t us, ts = t :: us ∧ Starts t ∧
      (∀ w, t = .word w → (∃ span, e = .wordRef w span) ∨ lower w ∈ controlWords) := by
  have hKey : ∀ {k c : String} {us : List Lex.Tok}, lower k = c → c ∈ controlWords → c ∉ strayWords →
      c ≠ ";" → ∃ t vs, (Lex.Tok.word k :: us) = t :: vs ∧ Starts t ∧
        (∀ w, t = .word w → (∃ span, e = .wordRef w span) ∨ lower w ∈ controlWords) := by
    intro k c us hk hControl hStray hSemi
    refine ⟨_, _, rfl, starts_keyword hk hStray hSemi, fun w hw => .inr ?_⟩
    rw [← Lex.Tok.word.inj hw, hk]
    exact hControl
  cases h with
  | int => exact ⟨_, _, rfl, by simp [Starts], by simp⟩
  | float => exact ⟨_, _, rfl, by simp [Starts], by simp⟩
  | str => exact ⟨_, _, rfl, by simp [Starts], by simp⟩
  | letForm => exact ⟨_, _, rfl, by simp [Starts], by simp⟩
  | @word w sp hWord hStop =>
    refine ⟨_, _, rfl, ?_, ?_⟩
    · intro v hv
      obtain rfl := Lex.Tok.word.inj hv
      exact ⟨fun hMem => hWord (List.mem_append_right _ hMem), hStop⟩
    · intro v hv
      obtain rfl := Lex.Tok.word.inj hv
      exact .inl ⟨sp, rfl⟩
  | tick hk => exact hKey hk (by decide) (by decide) (by decide)
  | toValue hk => exact hKey hk (by decide) (by decide) (by decide)
  | see hk => exact hKey hk (by decide) (by decide) (by decide)
  | locals hk => exact hKey hk (by decide) (by decide) (by decide)
  | ifThen hk => exact hKey hk (by decide) (by decide) (by decide)
  | ifElse hk => exact hKey hk (by decide) (by decide) (by decide)
  | beginUntil hk => exact hKey hk (by decide) (by decide) (by decide)
  | beginAgain hk => exact hKey hk (by decide) (by decide) (by decide)
  | beginWhileRepeat hk => exact hKey hk (by decide) (by decide) (by decide)
  | @doLoop k t isQdo _ _ _ _ hk =>
    cases isQdo
    · exact hKey hk (by decide) (by decide) (by decide)
    · exact hKey hk (by decide) (by decide) (by decide)
  | caseOf hk => exact hKey hk (by decide) (by decide) (by decide)

theorem parseBody_finds {es : List Expr} {ts : List Lex.Tok} (h : ExprsText drops parseLet es ts)
    {opened : Span} {forbidColon : Bool} (hColon : forbidColon = true → NoColon es)
    {more : List Lex.Tok} {toks : List Lex.Token} (hToks : Behind free (ts ++ .word ";" :: more) toks) :
    Finds free (parseBody parseLet opened forbidColon toks) fun r rest =>
      bareExprs r.1 = bareExprs es ∧ ExprsText drops parseLet r.1 ts ∧ Behind free more rest := by
  induction es generalizing ts toks with
  | nil =>
    cases h
    obtain ⟨span, rest, hShort, hNext, hRest⟩ := nextCode_behind hToks
    rw [parseBody.eq_def, hNext]
    dsimp only
    rw [if_pos rfl]
    exact .intro ⟨rfl, .nil, hRest⟩
  | cons e es ih =>
    cases h with
    | @cons _ _ us vs hHead hTail =>
      rw [List.append_assoc] at hToks
      obtain ⟨t, span, rest, hShort, hNext, hStart, hFinds⟩ := exprText_finds hHead _ toks hToks
      have hColon' : forbidColon = true → NoColon es := fun hf e' he' => hColon hf e' (by simp [he'])
      have hMore : Finds free (do
          let e ← exprOne parseLet t span rest
          have he : e.rest.length < toks.length := Nat.lt_of_lt_of_le e.shorter hShort
          let b ← parseBody parseLet opened forbidColon e.rest
          return (⟨(e.value :: b.value.1, b.value.2), b.rest, Nat.lt_trans b.shorter he⟩ :
            Parsed (List Expr × Span) toks.length))
          fun r rest => bareExprs r.1 = bareExprs (e :: es) ∧
            ExprsText drops parseLet r.1 (us ++ vs) ∧ Behind free more rest := by
        apply hFinds.bind
        rintro p ⟨hBare, hText, hBehind⟩
        apply (ih hTail hColon' hBehind).bind
        rintro b ⟨hBares, hTexts, hRest⟩
        refine .intro ⟨?_, .cons hText hTexts, hRest⟩
        rw [bareExprs, bareExprs, hBare, hBares]
      rw [parseBody.eq_def, hNext]
      dsimp only
      split
      · rename_i w
        rw [if_neg (hStart w rfl).2]
        by_cases hForbid : w = ":" ∧ forbidColon = true
        · -- a `:` that the text has here is a word of the body
          obtain ⟨t', us', rfl, -, hWord⟩ := exprText_head hHead
          obtain ⟨sp', rest', hShort', hNext', -⟩ := nextCode_behind hToks
          rw [hNext] at hNext'
          have hEq : Lex.Tok.word w = t' := by
            simp only [Option.some.injEq, Parsed.mk.injEq, Code.mk.injEq] at hNext'
            exact hNext'.1.1
          rcases hWord w hEq.symm with ⟨sp, rfl⟩ | hControl
          · exact absurd (by rw [hForbid.1]) (hColon hForbid.2 _ List.mem_cons_self sp)
          · rw [hForbid.1] at hControl
            exact absurd hControl (by decide)
        · rw [if_neg hForbid]
          exact hMore
      · exact hMore

theorem effectAfter_behind {ts : List Lex.Tok} {toks : List Lex.Token} (h : Behind free ts toks) :
    Behind free ts (effectAfter toks).2.rest ∧ (free → (effectAfter toks).1 = none) := by
  unfold effectAfter
  split
  · rename_i body span rest
    have hNot : ¬ free := by
      intro hf
      obtain ⟨t, ht⟩ := h.comments hf _ List.mem_cons_self
      cases ht
    split
    · exact ⟨⟨h.codes, fun hf => absurd hf hNot⟩, fun hf => absurd hf hNot⟩
    · exact ⟨h, fun hf => absurd hf hNot⟩
  · exact ⟨h, fun _ => rfl⟩

theorem headLocals_finds {names : List LocalDecl} {hs more : List Lex.Tok}
    (hHead : HeadText drops names hs) (hOpen : hs = [] → more.head? ≠ some (.word "\x7b:"))
    {toks : List Lex.Token} (h : Behind free (hs ++ more) toks) :
    Finds free (headLocals toks) fun found rest =>
      found.map LocalDecl.bare = names.map LocalDecl.bare ∧ HeadText drops found hs ∧
        Behind free more rest := by
  cases hHead with
  | none =>
    unfold headLocals
    split
    · rename_i w span rest hShort hNext
      have hw : w ≠ "\x7b:" := by
        rintro rfl
        have hCodes := nextCode_codes hNext
        rw [h.codes] at hCodes
        have hMore : more = .word "\x7b:" :: codes rest := hCodes
        exact hOpen rfl (by rw [hMore]; rfl)
      rw [if_neg hw]
      exact .intro ⟨rfl, .none, h⟩
    · exact .intro ⟨rfl, .none, h⟩
  | block hNames hDrop =>
    obtain ⟨span, rest, hShort, hNext, hRest⟩ := nextCode_behind h
    unfold headLocals
    rw [hNext]
    dsimp only
    rw [if_pos rfl]
    apply Finds.map (parseLocalsBlock_finds span hNames hRest)
    rintro p ⟨hBare, hFound, hBehind⟩
    refine ⟨hBare, .block hFound (hDrop.imp id ?_), hBehind⟩
    intro hNe hNil
    have hNil' : p.value = [] := hNil
    rw [hNil'] at hBare
    cases names with
    | nil => exact hNe rfl
    | cons d names => cases hBare

/-- The parser finds a colon definition behind its `:`. -/
theorem colonDefinition_finds (colonSpan : Span) {n : String} {names : List LocalDecl}
    {body : List Expr} {hs bs more : List Lex.Tok} (hHead : HeadText drops names hs)
    (hBody : ExprsText drops parseLet body bs) (hColon : NoColon body)
    (hOpen : hs = [] → (bs ++ .word ";" :: more).head? ≠ some (.word "\x7b:"))
    {toks : List Lex.Token}
    (h : Behind free (.word n :: (hs ++ (bs ++ .word ";" :: more))) toks) :
    Finds free (colonDefinition parseLet colonSpan toks) fun item rest =>
      Behind free more rest ∧ ∃ d : Definition, item = colonItem d ∧ d.name = n ∧
        (free → d.effect = none) ∧ d.locals.map LocalDecl.bare = names.map LocalDecl.bare ∧
        bareExprs d.body = bareExprs body ∧ HeadText drops d.locals hs ∧
        ExprsText drops parseLet d.body bs := by
  unfold colonDefinition
  apply (nameAfter_finds _ h).bind
  rintro name ⟨hName, hRest⟩
  obtain ⟨hEffect, hNone⟩ := effectAfter_behind hRest
  apply (headLocals_finds hHead hOpen hEffect).bind
  rintro locals ⟨hLocals, hLocalsText, hBodyToks⟩
  apply (parseBody_finds hBody (fun _ => hColon) hBodyToks).bind
  rintro found ⟨hFound, hFoundText, hMore⟩
  exact .intro ⟨hMore, _, rfl, hName, hNone, hLocals, hFound, hLocalsText, hFoundText⟩

end

end FactorForth.Correctness
