import FactorForth.Correctness.ReadBack

/-! Parsing undoes printing on the bodies of colon definitions, and takes balanced streams only. -/

namespace FactorForth.Correctness
open FactorForth.Library FactorForth.Compiler

/-! Printing. -/

def printNames (names : List LocalDecl) : List Lex.Tok :=
  names.map (fun d => .word d.name) ++ [.word ":\x7d"]

mutual
def printExpr : Expr → List Lex.Tok
  | .lit (.int v _) => [.int v .decimal (toString v)]
  | .lit (.float v _) => [.float v v.raw]
  | .lit (.str v kind _) => [.str v kind]
  | .wordRef name _ => [.word name]
  | .ifElse thenBody none _ => .word "IF" :: printExprs thenBody ++ [.word "THEN"]
  | .ifElse thenBody (some elseBody) _ =>
    .word "IF" :: printExprs thenBody ++ .word "ELSE" :: printExprs elseBody ++ [.word "THEN"]
  | .beginUntil body _ => .word "BEGIN" :: printExprs body ++ [.word "UNTIL"]
  | .beginWhileRepeat pred body _ =>
    .word "BEGIN" :: printExprs pred ++ .word "WHILE" :: printExprs body ++ [.word "REPEAT"]
  | .beginAgain body _ => .word "BEGIN" :: printExprs body ++ [.word "AGAIN"]
  | .doLoop isQdo body loopKind _ =>
    .word (if isQdo then "?DO" else "DO") :: printExprs body ++
      [.word (match loopKind with | .plus1 => "LOOP" | .plusN => "+LOOP")]
  | .caseOf arms none _ => .word "CASE" :: (printArms arms ++ [.word "ENDCASE"])
  | .caseOf arms (some default) _ =>
    .word "CASE" :: (printArms arms ++ .word "DEFAULT" :: printExprs default ++ [.word "ENDCASE"])
  | .tick name _ => [.word "'", .word name]
  | .toValue name _ => [.word "TO", .word name]
  | .see name _ => [.word "SEE", .word name]
  | .letForm _ _ => []
  | .locals names _ => .word "\x7b:" :: printNames names

def printArms : List (CaseArm Expr) → List Lex.Tok
  | [] => []
  | ⟨matchExpr, body, _⟩ :: arms =>
    printExprs matchExpr ++ .word "OF" :: printExprs body ++ .word "ENDOF" :: printArms arms

def printExprs : List Expr → List Lex.Tok
  | [] => []
  | e :: es => printExpr e ++ printExprs es
end

def printDefinition (name : String) (body : List Expr) : List Lex.Tok :=
  .word ":" :: .word name :: printExprs body ++ [.word ";"]

/-- Words that mean something to the parser of a body. -/
def keywords : List String := [":", ";"] ++ controlWords

/-! Expressions with a printed form: no LET blocks, no keyword as a word, and no mark of a locals block
as the name of a local. -/

mutual
def WellFormed : Expr → Prop
  | .lit _ => True
  | .wordRef name _ => lower name ∉ keywords
  | .ifElse thenBody none _ => AllWellFormed thenBody
  | .ifElse thenBody (some elseBody) _ => AllWellFormed thenBody ∧ AllWellFormed elseBody
  | .beginUntil body _ => AllWellFormed body
  | .beginWhileRepeat pred body _ => AllWellFormed pred ∧ AllWellFormed body
  | .beginAgain body _ => AllWellFormed body
  | .doLoop _ body _ _ => AllWellFormed body
  | .caseOf arms none _ => ArmsWellFormed arms
  | .caseOf arms (some default) _ => ArmsWellFormed arms ∧ AllWellFormed default
  | .tick _ _ => True
  | .toValue _ _ => True
  | .see _ _ => True
  | .letForm _ _ => False
  | .locals names _ => ∀ d ∈ names, d.name ∉ [":\x7d", ";", ":", "\x7b:"]

def ArmsWellFormed : List (CaseArm Expr) → Prop
  | [] => True
  | ⟨matchExpr, body, _⟩ :: arms =>
    AllWellFormed matchExpr ∧ AllWellFormed body ∧ ArmsWellFormed arms

def AllWellFormed : List Expr → Prop
  | [] => True
  | e :: es => WellFormed e ∧ AllWellFormed es
end

section
variable {drops : Prop} {parseLet : String → Except String LetLang.LetForm}

theorem printNames_text (names : List LocalDecl)
    (h : ∀ d ∈ names, d.name ∉ [":\x7d", ";", ":", "\x7b:"]) : NamesText names (printNames names) := by
  induction names with
  | nil => exact .stop
  | cons d names ih =>
    exact .name (h d List.mem_cons_self) (ih fun d' hd' => h d' (List.mem_cons_of_mem _ hd'))

mutual
/-- What is printed is a text of the expression that drops nothing. -/
theorem printExpr_text : ∀ e, WellFormed e → ExprText drops parseLet e (printExpr e)
  | .lit (.int _ _), _ => .int
  | .lit (.float _ _), _ => .float
  | .lit (.str _ _ _), _ => .str
  | .wordRef name _, h => by
    have hKey : lower name ∉ keywords := h
    refine .word (fun hMem => hKey (List.mem_append_right _ hMem)) ?_
    rintro rfl
    exact hKey (by decide)
  | .ifElse thenBody none _, h => .ifThen (by decide) (by decide) (printExprs_text thenBody h)
  | .ifElse thenBody (some elseBody) _, h =>
    .ifElse (by decide) (by decide) (by decide) (printExprs_text thenBody h.1)
      (printExprs_text elseBody h.2)
  | .beginUntil body _, h => .beginUntil (by decide) (by decide) (printExprs_text body h)
  | .beginWhileRepeat pred body _, h =>
    .beginWhileRepeat (by decide) (by decide) (by decide) (printExprs_text pred h.1)
      (printExprs_text body h.2)
  | .beginAgain body _, h => .beginAgain (by decide) (by decide) (printExprs_text body h)
  | .doLoop isQdo body loopKind _, h =>
    .doLoop (by cases isQdo <;> decide) (by cases loopKind <;> decide) (printExprs_text body h)
  | .caseOf arms none _, h => .caseOf (by decide) (printArms_text arms h (.endcase (by decide)))
  | .caseOf arms (some default) _, h => by
    have hDefault : CaseText drops parseLet [] (some default)
        ([] ++ .word "DEFAULT" :: printExprs default ++ [.word "ENDCASE"]) :=
      .default (.inl (by decide)) (by decide) (.inr rfl) .nil (printExprs_text default h.2)
    have hArms := printArms_text arms h.1 hDefault
    refine .caseOf (by decide) ?_
    simpa using hArms
  | .tick _ _, _ => .tick (by decide)
  | .toValue _ _, _ => .toValue (by decide)
  | .see _ _, _ => .see (by decide)
  | .letForm _ _, h => h.elim
  | .locals names _, h => .locals (by decide) (printNames_text names h)

theorem printArms_text : ∀ arms, ArmsWellFormed arms → ∀ {default ts},
    CaseText drops parseLet [] default ts → CaseText drops parseLet arms default (printArms arms ++ ts)
  | [], _, _, _, hRest => hRest
  | ⟨matchExpr, body, span⟩ :: arms, h, default, ts, hRest => by
    have hArms := printArms_text arms h.2.2 hRest
    have hArm : CaseText drops parseLet (⟨matchExpr, body, span⟩ :: arms) default
        (printExprs matchExpr ++ .word "OF" :: printExprs body ++
          .word "ENDOF" :: (printArms arms ++ ts)) :=
      .arm (by decide) (by decide) (printExprs_text matchExpr h.1) (printExprs_text body h.2.1) hArms
    rw [printArms]
    simpa using hArm

theorem printExprs_text : ∀ es, AllWellFormed es → ExprsText drops parseLet es (printExprs es)
  | [], _ => .nil
  | e :: es, h => .cons (printExpr_text e h.1) (printExprs_text es h.2)
end

/-! What the parser makes of a printed definition. -/

/-- A locals block at the head of a body, and the rest of the body. -/
def splitHead : List Expr → List LocalDecl × List Expr
  | .locals names _ :: body => (names.map LocalDecl.bare, bareExprs body)
  | body => ([], bareExprs body)

theorem wellFormed_noColon {es : List Expr} (h : AllWellFormed es) : NoColon es := by
  induction es with
  | nil => simp [NoColon]
  | cons e es ih =>
    intro e' he' span hEq
    rcases List.mem_cons.mp he' with rfl | he'
    · rw [hEq] at h
      have hKey : lower ":" ∉ keywords := h.1
      exact hKey (by decide)
    · exact ih h.2 e' he' span hEq

/-- Only a locals block begins with its mark. -/
theorem printExpr_open {e : Expr} (h : WellFormed e) (hLocals : ∀ names span, e ≠ .locals names span) :
    ∃ t us, printExpr e = t :: us ∧ t ≠ .word "\x7b:" := by
  cases e with
  | lit l => cases l <;> exact ⟨_, _, rfl, by simp⟩
  | wordRef name span =>
    have hKey : lower name ∉ keywords := h
    refine ⟨_, _, rfl, ?_⟩
    intro hEq
    rw [Lex.Tok.word.inj hEq] at hKey
    exact hKey (by decide)
  | ifElse thenBody elseBody span => cases elseBody <;> exact ⟨_, _, rfl, by simp⟩
  | beginUntil body span => exact ⟨_, _, rfl, by simp⟩
  | beginWhileRepeat pred body span => exact ⟨_, _, rfl, by simp⟩
  | beginAgain body span => exact ⟨_, _, rfl, by simp⟩
  | doLoop isQdo body loopKind span => cases isQdo <;> exact ⟨_, _, rfl, by simp⟩
  | caseOf arms default span => cases default <;> exact ⟨_, _, rfl, by simp⟩
  | tick name span => exact ⟨_, _, rfl, by simp⟩
  | toValue name span => exact ⟨_, _, rfl, by simp⟩
  | see name span => exact ⟨_, _, rfl, by simp⟩
  | letForm form span => exact h.elim
  | locals names span => exact absurd rfl (hLocals names span)

theorem commentFree_of_kinds {toks : List Lex.Token} {ts : List Lex.Tok}
    (h : toks.map Lex.Token.kind = ts.map Lex.Kind.code) : Behind True ts toks := by
  induction toks generalizing ts with
  | nil =>
    cases ts with
    | nil => exact ⟨rfl, fun _ tok hMem => by cases hMem⟩
    | cons t ts => cases h
  | cons tok toks ih =>
    cases ts with
    | nil => cases h
    | cons t ts =>
      obtain ⟨kind, span⟩ := tok
      obtain ⟨hKind, hRest⟩ := List.cons.inj h
      obtain rfl : kind = .code t := hKind
      obtain ⟨hCodes, hFree⟩ := ih hRest
      refine ⟨by rw [codes_code, hCodes], fun _ tok hMem => ?_⟩
      rcases List.mem_cons.mp hMem with rfl | hMem
      · exact ⟨t, rfl⟩
      · exact hFree trivial tok hMem

theorem programFrom_end {pending : Pending} (hPending : pending.exprs = []) {toks : List Lex.Token}
    (h : codes toks = []) : programFrom parseLet pending toks = .ok [] := by
  have hNext : nextCode toks = none := by
    cases hNext : nextCode toks with
    | none => rfl
    | some p =>
      have hCodes := nextCode_codes hNext
      rw [h] at hCodes
      cases hCodes
  rw [programFrom.eq_def, hNext]
  dsimp only
  unfold Pending.items
  rw [hPending]
  rfl

theorem programFrom_flushing {pending : Pending} {toks rest : List Lex.Token} {t : Lex.Tok}
    {span : Span} {hShort : rest.length < toks.length}
    (hNext : nextCode toks = some ⟨⟨t, span⟩, rest, hShort⟩)
    {read : Span → (toks : List Lex.Token) → Except ParseError (Parsed Item toks.length)}
    (hOpen : opener parseLet t = .flushing read) {item : Parsed Item rest.length}
    (hItem : read span rest = .ok item) {items : List Item}
    (hMore : programFrom parseLet pending.flushed item.rest = .ok items) :
    programFrom parseLet pending toks = .ok (pending.items ++ item.value :: items) := by
  rw [programFrom.eq_def, hNext]
  dsimp only
  rw [hOpen]
  dsimp only
  rw [hItem]
  show programFrom parseLet pending.flushed item.rest >>= _ = _
  rw [hMore]
  rfl

theorem parse_colon {n : String} {names : List LocalDecl} {body : List Expr} {hs bs : List Lex.Tok}
    (hHead : HeadText drops names hs) (hBody : ExprsText drops parseLet body bs)
    (hColon : NoColon body) (hOpen : hs = [] → (bs ++ [Lex.Tok.word ";"]).head? ≠ some (.word "\x7b:"))
    {toks : List Lex.Token}
    (h : Behind True (Lex.Tok.word ":" :: .word n :: (hs ++ (bs ++ [.word ";"]))) toks) :
    ∃ d : Definition, parse parseLet toks = .ok ⟨[colonItem d]⟩ ∧ d.name = n ∧ d.effect = none ∧
      d.locals.map LocalDecl.bare = names.map LocalDecl.bare ∧
      bareExprs d.body = bareExprs body := by
  obtain ⟨span, rest, hShort, hNext, hRest⟩ := nextCode_behind h
  rcases colonDefinition_finds span hHead hBody hColon hOpen hRest with
    ⟨p, hOk, hMore, d, hItem, hName, hEffect, hLocals, hBare, -, -⟩ | ⟨-, hFree⟩
  · refine ⟨d, ?_, hName, hEffect trivial, hLocals, hBare⟩
    have hEnd : programFrom parseLet Pending.empty.flushed p.rest = .ok [] :=
      programFrom_end (flushed_exprs _) hMore.codes
    unfold parse
    rw [programFrom_flushing hNext rfl hOk hEnd, hItem]
    rfl
  · exact absurd trivial hFree

theorem printed_toks {name : String} {body : List Expr} {toks : List Lex.Token}
    (h : toks.map Lex.Token.kind = (printDefinition name body).map Lex.Kind.code) :
    Behind True (Lex.Tok.word ":" :: .word name :: (printExprs body ++ [.word ";"])) toks := by
  have hToks := commentFree_of_kinds h
  simpa [printDefinition] using hToks

/-- A printed definition is read back, a locals block at the head of its body as the definition's. -/
theorem parse_printDefinition {name : String} {body : List Expr} (hWell : AllWellFormed body)
    {toks : List Lex.Token}
    (h : toks.map Lex.Token.kind = (printDefinition name body).map Lex.Kind.code) :
    ∃ d : Definition, parse parseLet toks = .ok ⟨[colonItem d]⟩ ∧ d.name = name ∧ d.effect = none ∧
      (d.locals.map LocalDecl.bare, bareExprs d.body) = splitHead body := by
  have hToks := printed_toks h
  have hColon := wellFormed_noColon hWell
  by_cases hLocals : ∃ names span rest, body = .locals names span :: rest
  · obtain ⟨names, span, rest, rfl⟩ := hLocals
    have hHead : HeadText True names (.word "\x7b:" :: printNames names) :=
      .block (printNames_text names hWell.1) (.inl trivial)
    have hRest : NoColon rest := fun e he => hColon e (List.mem_cons_of_mem _ he)
    have hText : Behind True (Lex.Tok.word ":" :: .word name ::
        ((.word "\x7b:" :: printNames names) ++ (printExprs rest ++ [.word ";"]))) toks := by
      simpa [printExprs, printExpr] using hToks
    obtain ⟨d, hOk, hName, hEffect, hNames, hBare⟩ :=
      parse_colon hHead (printExprs_text rest hWell.2) hRest (by simp) hText
    exact ⟨d, hOk, hName, hEffect, by rw [hNames, hBare]; rfl⟩
  · have hOpen : (printExprs body ++ [Lex.Tok.word ";"]).head? ≠ some (.word "\x7b:") := by
      cases body with
      | nil => simp [printExprs]
      | cons e es =>
        have hNot : ∀ names span, e ≠ .locals names span :=
          fun names span hEq => hLocals ⟨names, span, es, by rw [hEq]⟩
        obtain ⟨t, us, hPrint, ht⟩ := printExpr_open hWell.1 hNot
        rw [printExprs, hPrint]
        simpa using ht
    have hNone : HeadText True ([] : List LocalDecl) [] := .none
    obtain ⟨d, hOk, hName, hEffect, hNames, hBare⟩ :=
      parse_colon hNone (printExprs_text body hWell) hColon (fun _ => hOpen) hToks
    have hSplit : splitHead body = ([], bareExprs body) := by
      unfold splitHead
      split
      · exact absurd ⟨_, _, _, rfl⟩ hLocals
      · rfl
    exact ⟨d, hOk, hName, hEffect, by rw [hNames, hBare, hSplit]; rfl⟩

/-! Streams that are no sentence. -/

/-- A sentence begins with the start of an expression or with a defining word. -/
theorem itemText_head {item : Item} {ts : List Lex.Tok}
    (h : ItemText drops parseLet item ts) :
    ∃ t us, ts = t :: us ∧ (Starts t ∨ ∃ k, t = .word k ∧ lower k ∈ definers) := by
  have hExprs : ∀ {es : List Expr} {us vs : List Lex.Tok}, es ≠ [] →
      ExprsText drops parseLet es us →
      ∃ t ws, us ++ vs = t :: ws ∧ (Starts t ∨ ∃ k, t = .word k ∧ lower k ∈ definers) := by
    intro es us vs hNe hText
    cases hText with
    | nil => exact absurd rfl hNe
    | cons hHead hTail =>
      obtain ⟨t, ws, rfl, hStart, -⟩ := exprText_head hHead
      exact ⟨t, _, rfl, .inl hStart⟩
  have hWord : ∀ {k c : String} {us : List Lex.Tok}, lower k = c → c ∈ definers →
      ∃ t ws, Lex.Tok.word k :: us = t :: ws ∧ (Starts t ∨ ∃ k, t = .word k ∧ lower k ∈ definers) :=
    fun hk hMem => ⟨_, _, rfl, .inr ⟨_, rfl, hk ▸ hMem⟩⟩
  cases h with
  | definition hk => exact hWord hk (by decide)
  | template hk => exact hWord hk (by decide)
  | topLevel hNe hText =>
    rw [← List.append_nil ts]
    exact hExprs hNe hText
  | variable_ hk => exact hWord hk (by decide)
  | needs hk => exact hWord hk (by decide)
  | create hk => exact hWord hk (by decide)
  | collection hk => exact ⟨_, _, rfl, .inl (by simp [Starts])⟩
  | constant hk hNe hText => exact hExprs hNe hText
  | value hk hNe hText => exact hExprs hNe hText
  | class_ hk => exact hWord hk (by decide)
  | generic hk => exact hWord hk (by decide)
  | @method k m _ _ hk =>
    refine hWord hk ?_
    cases m.kind <;> decide

/-- Printed bodies are read back, and what is no sentence is rejected. -/
theorem parse_undoes_print :
    (∀ name body toks, AllWellFormed body →
      toks.map Lex.Token.kind = (printDefinition name body).map Lex.Kind.code →
        ∃ d : Definition, parse parseLet toks = .ok ⟨[colonItem d]⟩ ∧ d.name = name ∧
          d.effect = none ∧ (d.locals.map LocalDecl.bare, bareExprs d.body) = splitHead body) ∧
    ∀ toks, (∀ items, ¬ ItemsText True parseLet items (codes toks)) →
      ∃ e, parse parseLet toks = .error e := by
  constructor
  · exact fun name body toks hWell h => parse_printDefinition hWell h
  · intro toks h
    cases hParse : parse parseLet toks with
    | error e => exact ⟨e, rfl⟩
    | ok prog => exact absurd (parse_text hParse) (h prog.items)

end

def printedToks (name : String) (body : List Expr) : List Lex.Token :=
  (printDefinition name body).map fun t => ⟨.code t, noSpan⟩

theorem printedToks_kinds (name : String) (body : List Expr) :
    (printedToks name body).map Lex.Token.kind = (printDefinition name body).map Lex.Kind.code := by
  simp [printedToks, Function.comp_def]

/-- A loop over a test, and a CASE with an empty default. -/
def loopAndCase : List Expr :=
  [.doLoop false [.ifElse [.wordRef "dup" noSpan] none noSpan] .plus1 noSpan,
    .caseOf [⟨[.lit (.int 1 noSpan)], [.tick "then" noSpan], noSpan⟩] (some []) noSpan]

theorem loopAndCase_wellFormed : AllWellFormed loopAndCase := by
  simp only [loopAndCase, AllWellFormed, WellFormed, ArmsWellFormed, and_true]
  decide

/-- A closer by itself is no sentence. -/
theorem then_no_sentence {drops : Prop} {parseLet : String → Except String LetLang.LetForm}
    (items : List Item) : ¬ ItemsText drops parseLet items [.word "then"] := by
  intro h
  generalize hEq : [Lex.Tok.word "then"] = all at h
  cases h with
  | nil => cases hEq
  | cons hItem hItems =>
    obtain ⟨t, us, rfl, hStart⟩ := itemText_head hItem
    obtain ⟨rfl, -⟩ := List.cons.inj hEq
    rcases hStart with hStart | ⟨k, hk, hMem⟩
    · exact (hStart "then" rfl).1 (by decide)
    · rw [← Lex.Tok.word.inj hk] at hMem
      revert hMem
      decide

theorem parse_undoes_print_loopAndCase :
    (∃ d : Definition, parse (fun _ => .error "") (printedToks "f" loopAndCase) = .ok ⟨[colonItem d]⟩ ∧
      d.name = "f" ∧ d.effect = none ∧
        (d.locals.map LocalDecl.bare, bareExprs d.body) = splitHead loopAndCase) ∧
    ∃ e, parse (fun _ => .error "") [⟨.code (.word "then"), noSpan⟩] = .error e :=
  ⟨parse_undoes_print.1 "f" loopAndCase _ loopAndCase_wellFormed (printedToks_kinds _ _),
    parse_undoes_print.2 [⟨.code (.word "then"), noSpan⟩] fun items => then_no_sentence items⟩

def bodyLengths (items : List Item) : List Nat :=
  items.flatMap fun
    | .definition d => [d.body.length]
    | _ => []

/-- The locals block at the head of a body is not in the body that is read back. -/
theorem parse_not_undoes_print :
    ¬ ∀ (name : String) (body : List Expr) (toks : List Lex.Token), AllWellFormed body →
      toks.map Lex.Token.kind = (printDefinition name body).map Lex.Kind.code →
        ∃ d : Definition, parse (fun _ => .error "") toks = .ok ⟨[.definition d]⟩ ∧
          bareExprs d.body = bareExprs body := by
  intro hAll
  have hWell : AllWellFormed [.locals [⟨"x", noSpan⟩] noSpan] := by
    simp only [AllWellFormed, WellFormed, and_true]
    decide
  obtain ⟨d, hParse, hBare⟩ := hAll "f" _ _ hWell (printedToks_kinds "f" _)
  have hEmpty : (parse (fun _ => .error "") (printedToks "f" [.locals [⟨"x", noSpan⟩] noSpan])
      ).toOption.map (fun prog => bodyLengths prog.items) = some [0] := by
    decide +kernel
  rw [hParse] at hEmpty
  have hList : [d.body.length] = [0] := Option.some.inj hEmpty
  have hLength : d.body.length = 0 := (List.cons.inj hList).1
  rw [List.eq_nil_of_length_eq_zero hLength] at hBare
  cases hBare

end FactorForth.Correctness
