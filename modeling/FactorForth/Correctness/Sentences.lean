import FactorForth.Correctness.TokensLeft

/-! The texts of the syntax: which tokens an expression, an item or a program is read from. Where the
parser drops code, the sentence has code that the syntax tree has not. -/

namespace FactorForth.Correctness
open FactorForth.Library FactorForth.Compiler

/-- The tokens of a stream without its comments. -/
def codes (toks : List Lex.Token) : List Lex.Tok :=
  toks.filterMap fun t => match t.kind with
    | .code t => some t
    | _ => none

@[simp] theorem codes_nil : codes [] = [] := rfl

@[simp] theorem codes_code (t : Lex.Tok) (span : Span) (rest : List Lex.Token) :
    codes (⟨.code t, span⟩ :: rest) = t :: codes rest := rfl

@[simp] theorem codes_lineComment (text : String) (span : Span) (rest : List Lex.Token) :
    codes (⟨.lineComment text, span⟩ :: rest) = codes rest := rfl

@[simp] theorem codes_blockComment (text : String) (span : Span) (rest : List Lex.Token) :
    codes (⟨.blockComment text, span⟩ :: rest) = codes rest := rfl

/-- The words that open, close or divide a construct, and the parsing words. -/
def controlWords : List String :=
  ["if", "begin", "do", "?do", "case", "'", "to", "see", "\x7b:"] ++ strayWords

/-- The names of a locals block with the closing mark. -/
inductive NamesText : List LocalDecl → List Lex.Tok → Prop
  | stop : NamesText [] [.word ":\x7d"]
  | name {n : String} {span : Span} {names : List LocalDecl} {ts : List Lex.Tok}
      (h : n ∉ [":\x7d", ";", ":", "\x7b:"]) (hNames : NamesText names ts) :
      NamesText (⟨n, span⟩ :: names) (.word n :: ts)

section
variable (drops : Prop) (parseLet : String → Except String LetLang.LetForm)

mutual
inductive ExprText : Expr → List Lex.Tok → Prop
  | int {v : Int} {base : Lex.NumBase} {raw : String} {span : Span} :
      ExprText (.lit (.int v span)) [.int v base raw]
  | float {v : FloatLit} {raw : String} {span : Span} :
      ExprText (.lit (.float v span)) [.float v raw]
  | str {v : String} {kind : StringKind} {span : Span} :
      ExprText (.lit (.str v kind span)) [.str v kind]
  | letForm {text : String} {form : LetLang.LetForm} {span : Span} (h : parseLet text = .ok form) :
      ExprText (.letForm form span) [.letBlock text]
  | word {w : String} {span : Span} (h : lower w ∉ controlWords) (hStop : w ≠ ";") :
      ExprText (.wordRef w span) [.word w]
  | tick {k n : String} {span : Span} (hk : lower k = "'") :
      ExprText (.tick n span) [.word k, .word n]
  | toValue {k n : String} {span : Span} (hk : lower k = "to") :
      ExprText (.toValue n span) [.word k, .word n]
  | see {k n : String} {span : Span} (hk : lower k = "see") :
      ExprText (.see n span) [.word k, .word n]
  | locals {k : String} {names : List LocalDecl} {ts : List Lex.Tok} {span : Span}
      (hk : lower k = "\x7b:") (hNames : NamesText names ts) :
      ExprText (.locals names span) (.word k :: ts)
  | ifThen {k t : String} {thenBody : List Expr} {ts : List Lex.Tok} {span : Span}
      (hk : lower k = "if") (ht : lower t = "then") (hThen : ExprsText thenBody ts) :
      ExprText (.ifElse thenBody none span) (.word k :: ts ++ [.word t])
  | ifElse {k e t : String} {thenBody elseBody : List Expr} {ts us : List Lex.Tok} {span : Span}
      (hk : lower k = "if") (he : lower e = "else") (ht : lower t = "then")
      (hThen : ExprsText thenBody ts) (hElse : ExprsText elseBody us) :
      ExprText (.ifElse thenBody (some elseBody) span)
        (.word k :: ts ++ .word e :: us ++ [.word t])
  | beginUntil {k t : String} {body : List Expr} {ts : List Lex.Tok} {span : Span}
      (hk : lower k = "begin") (ht : lower t = "until") (hBody : ExprsText body ts) :
      ExprText (.beginUntil body span) (.word k :: ts ++ [.word t])
  | beginAgain {k t : String} {body : List Expr} {ts : List Lex.Tok} {span : Span}
      (hk : lower k = "begin") (ht : lower t = "again") (hBody : ExprsText body ts) :
      ExprText (.beginAgain body span) (.word k :: ts ++ [.word t])
  | beginWhileRepeat {k w t : String} {pred body : List Expr} {ts us : List Lex.Tok} {span : Span}
      (hk : lower k = "begin") (hw : lower w = "while") (ht : lower t = "repeat")
      (hPred : ExprsText pred ts) (hBody : ExprsText body us) :
      ExprText (.beginWhileRepeat pred body span) (.word k :: ts ++ .word w :: us ++ [.word t])
  | doLoop {k t : String} {isQdo : Bool} {loopKind : LoopKind} {body : List Expr}
      {ts : List Lex.Tok} {span : Span} (hk : lower k = if isQdo then "?do" else "do")
      (ht : lower t = match loopKind with | .plus1 => "loop" | .plusN => "+loop")
      (hBody : ExprsText body ts) :
      ExprText (.doLoop isQdo body loopKind span) (.word k :: ts ++ [.word t])
  | caseOf {k : String} {arms : List (CaseArm Expr)} {default : Option (List Expr)}
      {ts : List Lex.Tok} {span : Span} (hk : lower k = "case") (hCase : CaseText arms default ts) :
      ExprText (.caseOf arms default span) (.word k :: ts)

/-- What follows CASE. -/
inductive CaseText : List (CaseArm Expr) → Option (List Expr) → List Lex.Tok → Prop
  | arm {o e : String} {matchExpr body : List Expr} {span : Span} {arms : List (CaseArm Expr)}
      {default : Option (List Expr)} {ts us vs : List Lex.Tok} (ho : lower o = "of")
      (he : lower e = "endof") (hMatch : ExprsText matchExpr ts) (hBody : ExprsText body us)
      (hArms : CaseText arms default vs) :
      CaseText (⟨matchExpr, body, span⟩ :: arms) default (ts ++ .word o :: us ++ .word e :: vs)
  | endcase {k : String} (hk : lower k = "endcase") : CaseText [] none [.word k]
  | implicit {k : String} {default : List Expr} {ts : List Lex.Tok} (hk : lower k = "endcase")
      (hNe : default ≠ []) (hDefault : ExprsText default ts) :
      CaseText [] (some default) (ts ++ [.word k])
  /-- Code in front of an explicit default is dropped. -/
  | default {w k : String} {dropped default : List Expr} {ts us : List Lex.Tok}
      (hw : lower w = "default" ∨ lower w = "other") (hk : lower k = "endcase")
      (hDrop : drops ∨ dropped = []) (hDropped : ExprsText dropped ts)
      (hDefault : ExprsText default us) :
      CaseText [] (some default) (ts ++ .word w :: us ++ [.word k])

inductive ExprsText : List Expr → List Lex.Tok → Prop
  | nil : ExprsText [] []
  | cons {e : Expr} {es : List Expr} {ts us : List Lex.Tok} (hHead : ExprText e ts)
      (hTail : ExprsText es us) : ExprsText (e :: es) (ts ++ us)
end

end

/-! Items. -/

/-- The defining words of the top level, and `;`. -/
def definers : List String :=
  [":", ";", "variable", "needs", "create", "array", "farray", "cbuffer", "constant", "fconstant",
    "class:", "generic:", "method:", "method-before:", "method-after:", "value"]

def methodWord : MethodKind → String
  | .primary => "method:"
  | .before => "method-before:"
  | .after => "method-after:"

def constantWord : ConstFlavour → String
  | .cell => "constant"
  | .float => "fconstant"

/-- The unit that may stand between a count and ALLOT. -/
inductive UnitText : Nat → List Lex.Tok → Prop
  | cells {w : String} (hw : lower w = "cells") : UnitText 8 [.word w]
  | chars {w : String} (hw : lower w = "chars") : UnitText 1 [.word w]
  | bytes : UnitText 1 []

/-- The slots of a class with the closing `;`. -/
inductive SlotsText : List SlotDef → List Lex.Tok → Prop
  | stop : SlotsText [] [.word ";"]
  | slot {k n : String} {span : Span} {slots : List SlotDef} {ts : List Lex.Tok}
      (hk : lower k = "slot:") (hSlots : SlotsText slots ts) :
      SlotsText (⟨n, span⟩ :: slots) (.word k :: .word n :: ts)

/-- A CREATE takes every count with ALLOT that stands behind it. -/
def StartsRun (ts : List Lex.Tok) : Prop :=
  ∃ v base raw unit us a more, ts = .int v base raw :: us ++ .word a :: more ∧ 0 ≤ v ∧
    UnitText unit us ∧ lower a = "allot"

/-- No `:` stands between the constructs of a body. -/
def NoColon (es : List Expr) : Prop := ∀ e ∈ es, ∀ span, e ≠ .wordRef ":" span

/-- No defining word stands between the constructs of a run. -/
def NoDefiner (es : List Expr) : Prop :=
  ∀ e ∈ es, ∀ name span, e = .wordRef name span → lower name ∉ definers

def StartsCreate (es : List Expr) : Prop :=
  ∃ c span rest, es = .wordRef c span :: rest ∧ lower c = "create"

inductive ParentText : Option String → List Lex.Tok → Prop
  | none : ParentText none []
  | some {k n : String} (hk : lower k = "extends") : ParentText (some n) [.word k, .word n]

section
variable (drops : Prop) (parseLet : String → Except String LetLang.LetForm)

/-- The locals block in front of a body. The syntax tree does not tell an empty one from none. -/
inductive HeadText : List LocalDecl → List Lex.Tok → Prop
  | none : HeadText [] []
  | block {names : List LocalDecl} {ts : List Lex.Tok} (hNames : NamesText names ts)
      (hDrop : drops ∨ names ≠ []) : HeadText names (.word "\x7b:" :: ts)

/-- Counts with their units, from the bytes allotted so far to all of them. -/
inductive AllotsText : Nat → Nat → List Lex.Tok → Prop
  | stop {n : Nat} : AllotsText n n []
  | run {n total unit : Nat} {v : Int} {base : Lex.NumBase} {raw a : String} {ts us : List Lex.Tok}
      (hv : 0 ≤ v) (hExact : drops ∨ v * unit + n ≤ u32Max) (hUnit : UnitText unit us)
      (ha : lower a = "allot")
      (hRuns : AllotsText (saturatingAdd n (saturatingMul (asU32 v) unit)) total ts) :
      AllotsText n total (.int v base raw :: us ++ .word a :: ts)

/-- From the token behind the name to the closing `;`. -/
structure BodyText (locals : List LocalDecl) (body : List Expr) (hs bs : List Lex.Tok) : Prop where
  head : HeadText drops locals hs
  exprs : ExprsText drops parseLet body bs
  /-- A locals block at the head is the definition's. -/
  open_ : hs = [] → bs.head? ≠ some (.word "\x7b:")

inductive ItemText : Item → List Lex.Tok → Prop
  | definition {k : String} {d : Definition} {hs bs : List Lex.Tok} (hk : lower k = ":")
      (hBody : BodyText drops parseLet d.locals d.body hs bs) (hColon : NoColon d.body)
      (hPlain : templateParts d.body = none) :
      ItemText (.definition d) (.word k :: .word d.name :: hs ++ bs ++ [.word ";"])
  /-- Code in front of CREATE and a locals block are dropped. -/
  | template {k : String} {t : TemplateDef} {locals : List LocalDecl} {body : List Expr}
      {hs bs : List Lex.Tok} (hk : lower k = ":") (hBody : BodyText drops parseLet locals body hs bs)
      (hColon : NoColon body) (hParts : templateParts body = some (t.constructor, t.doesBody))
      (hDrop : drops ∨ (hs = [] ∧ StartsCreate body)) :
      ItemText (.template t) (.word k :: .word t.name :: hs ++ bs ++ [.word ";"])
  | topLevel {exprs : List Expr} {span : Span} {ts : List Lex.Tok} (hNe : exprs ≠ [])
      (hExprs : ExprsText drops parseLet exprs ts) (hPlain : NoDefiner exprs) :
      ItemText (.topLevel exprs span) ts
  | variable_ {k : String} {v : VariableDef} (hk : lower k = "variable") :
      ItemText (.variable v) [.word k, .word v.name]
  | needs {k path : String} {span : Span} (hk : lower k = "needs") :
      ItemText (.needs path span) [.word k, .word path]
  | create {k : String} {c : CreateDef} {ts : List Lex.Tok} (hk : lower k = "create")
      (hRuns : AllotsText drops 0 c.allottedBytes ts) :
      ItemText (.create c) (.word k :: .word c.name :: ts)
  | collection {k raw : String} {v : Int} {base : Lex.NumBase} {c : CollectionDef}
      (hk : collectionKind (lower k) = some c.kind) (hv : 0 ≤ v) (hCount : asU32 v = c.count)
      (hExact : drops ∨ v ≤ u32Max) :
      ItemText (.collection c) [.int v base raw, .word k, .word c.name]
  | constant {k : String} {c : ConstantDef} {exprs : List Expr} {ts : List Lex.Tok}
      (hk : lower k = constantWord c.flavour) (hNe : exprs ≠ [])
      (hExprs : ExprsText drops parseLet exprs ts) (hPlain : NoDefiner exprs)
      (hValue : c.value = constValue exprs) :
      ItemText (.constant c) (ts ++ [.word k, .word c.name])
  | value {k : String} {v : ValueDef} {ts : List Lex.Tok} (hk : lower k = "value")
      (hNe : v.initial ≠ []) (hExprs : ExprsText drops parseLet v.initial ts)
      (hPlain : NoDefiner v.initial) :
      ItemText (.value v) (ts ++ [.word k, .word v.name])
  | class_ {k : String} {c : ClassDef} {ps ss : List Lex.Tok} (hk : lower k = "class:")
      (hParent : ParentText c.superclass ps) (hSlots : SlotsText c.slots ss) :
      ItemText (.class_ c) (.word k :: .word c.name :: ps ++ ss)
  | generic {k : String} {g : GenericDef} (hk : lower k = "generic:") :
      ItemText (.generic g) [.word k, .word g.name]
  | method {k : String} {m : MethodDef} {hs bs : List Lex.Tok} (hk : lower k = methodWord m.kind)
      (hBody : BodyText drops parseLet m.locals m.body hs bs) :
      ItemText (.method m) (.word k :: .word m.genericName :: hs ++ bs ++ [.word ";"])

inductive ItemsText : List Item → List Lex.Tok → Prop
  | nil : ItemsText [] []
  | cons {item : Item} {items : List Item} {ts us : List Lex.Tok}
      (hItem : ItemText drops parseLet item ts) (hItems : ItemsText items us)
      (hGreedy : ∀ c, item = .create c → ¬ StartsRun us) : ItemsText (item :: items) (ts ++ us)

end

/-! What each expression parser takes from the stream is a text of what it returns. -/

theorem nextCode_codes {toks : List Lex.Token} {p : Parsed Code toks.length}
    (h : nextCode toks = some p) : codes toks = p.value.tok :: codes p.rest := by
  induction toks with
  | nil => cases h
  | cons tok toks ih =>
    obtain ⟨kind, span⟩ := tok
    cases kind with
    | code t =>
      obtain rfl := Option.some.inj h
      rfl
    | lineComment text =>
      obtain ⟨q, hq, rfl⟩ := Option.map_eq_some_iff.mp h
      exact ih hq
    | blockComment text =>
      obtain ⟨q, hq, rfl⟩ := Option.map_eq_some_iff.mp h
      exact ih hq

theorem nextCode_none {toks : List Lex.Token} (h : nextCode toks = none) : codes toks = [] := by
  induction toks with
  | nil => rfl
  | cons tok toks ih =>
    obtain ⟨kind, span⟩ := tok
    cases kind with
    | code t => cases h
    | lineComment text => exact ih (Option.map_eq_none_iff.mp h)
    | blockComment text => exact ih (Option.map_eq_none_iff.mp h)

theorem nameAfter_codes {error : ParseError} {toks : List Lex.Token} {p : Parsed Name toks.length}
    (h : nameAfter error toks = .ok p) : codes toks = .word p.value.text :: codes p.rest := by
  unfold nameAfter at h
  split at h
  · obtain rfl := Except.ok.inj h
    rfl
  · cases h

theorem parseLocalsBlock_text (openSpan : Span) (toks : List Lex.Token)
    {p : Parsed (List LocalDecl) toks.length} (h : parseLocalsBlock openSpan toks = .ok p) :
    ∃ ts, codes toks = ts ++ codes p.rest ∧ NamesText p.value ts := by
  rw [parseLocalsBlock.eq_def] at h
  split at h
  · rename_i w span rest hShort hNext
    have hCodes := nextCode_codes hNext
    split at h
    · rename_i hStop
      obtain rfl := Except.ok.inj h
      exact ⟨[.word w], hCodes, hStop ▸ .stop⟩
    · rename_i hStop
      split at h
      · cases h
      · rename_i hBad
        obtain ⟨q, hq, rfl⟩ := ok_of_map h
        obtain ⟨ts, hRest, hNames⟩ := parseLocalsBlock_text openSpan rest hq
        refine ⟨.word w :: ts, ?_, .name (by simpa [hStop, and_assoc] using hBad) hNames⟩
        rw [hCodes]
        exact congrArg _ hRest
  · cases h
termination_by toks.length

section
variable {parseLet : String → Except String LetLang.LetForm}

/-- A parsing word takes one name. -/
theorem parseNamed_text {keyword : String} {span : Span} {mk : String → Span → Expr}
    {rest : List Lex.Token} {p : Parsed Expr rest.length}
    (h : parseNamed keyword span mk rest = .ok p) :
    ∃ n sp, codes rest = .word n :: codes p.rest ∧ p.value = mk n sp := by
  obtain ⟨q, hq, rfl⟩ := ok_of_map h
  exact ⟨q.value.text, _, nameAfter_codes hq, rfl⟩

variable (parseLet) in
/-- What a block reader has read: the text of the body and the word that closed it. -/
def BlockText (terminators : List String) (b : Block) (before after : List Lex.Tok) : Prop :=
  ∃ ts w, before = ts ++ .word w :: after ∧ lower w = b.word ∧ b.word ∈ terminators ∧
    ExprsText True parseLet b.body ts

mutual
theorem exprOne_text (t : Lex.Tok) (span : Span) (rest : List Lex.Token)
    {p : Parsed Expr (rest.length + 1)} (h : exprOne parseLet t span rest = .ok p)
    (hStop : t ≠ .word ";") :
    ∃ ts, codes rest = ts ++ codes p.rest ∧ ExprText True parseLet p.value (t :: ts) := by
  rw [exprOne.eq_def] at h
  cases t with
  | int v base raw =>
    obtain rfl := Except.ok.inj h
    exact ⟨[], rfl, .int⟩
  | float v raw =>
    obtain rfl := Except.ok.inj h
    exact ⟨[], rfl, .float⟩
  | str v kind =>
    obtain rfl := Except.ok.inj h
    exact ⟨[], rfl, .str⟩
  | letBlock text =>
    dsimp only at h
    split at h
    · rename_i form hForm
      obtain rfl := Except.ok.inj h
      exact ⟨[], rfl, .letForm hForm⟩
    · cases h
  | word w =>
    dsimp only at h
    split at h
    · rename_i hk
      obtain ⟨q, hq, rfl⟩ := ok_of_map h
      exact parseIf_text span rest hq hk
    · rename_i hk
      obtain ⟨q, hq, rfl⟩ := ok_of_map h
      exact parseBegin_text span rest hq hk
    · rename_i hk
      obtain ⟨q, hq, rfl⟩ := ok_of_map h
      exact parseDo_text span false rest hq hk
    · rename_i hk
      obtain ⟨q, hq, rfl⟩ := ok_of_map h
      exact parseDo_text span true rest hq hk
    · rename_i hk
      obtain ⟨q, hq, rfl⟩ := ok_of_map h
      obtain ⟨r, hr, rfl⟩ := ok_of_map hq
      obtain ⟨ts, hRest, hCase⟩ := parseCase_text span rest hr
      exact ⟨ts, hRest, .caseOf hk hCase⟩
    · rename_i hk
      obtain ⟨q, hq, rfl⟩ := ok_of_map h
      obtain ⟨n, sp, hRest, hValue⟩ := parseNamed_text hq
      exact ⟨[.word n], hRest, hValue ▸ .tick hk⟩
    · rename_i hk
      obtain ⟨q, hq, rfl⟩ := ok_of_map h
      obtain ⟨n, sp, hRest, hValue⟩ := parseNamed_text hq
      exact ⟨[.word n], hRest, hValue ▸ .toValue hk⟩
    · rename_i hk
      obtain ⟨q, hq, rfl⟩ := ok_of_map h
      obtain ⟨n, sp, hRest, hValue⟩ := parseNamed_text hq
      exact ⟨[.word n], hRest, hValue ▸ .see hk⟩
    · rename_i hk
      obtain ⟨q, hq, rfl⟩ := ok_of_map h
      obtain ⟨r, hr, rfl⟩ := ok_of_map hq
      obtain ⟨ts, hRest, hNames⟩ := parseLocalsBlock_text span rest hr
      exact ⟨ts, hRest, .locals hk hNames⟩
    · -- a word of no construct: only a stray closer is refused
      split at h
      · cases h
      · rename_i h1 h2 h3 h4 h5 h6 h7 h8 h9 hStray
        obtain rfl := Except.ok.inj h
        refine ⟨[], rfl, .word ?_ fun hEq => hStop (hEq ▸ rfl)⟩
        simp only [controlWords, List.mem_append, List.mem_cons, List.not_mem_nil, or_false, not_or]
        exact ⟨⟨h1, h2, h3, h4, h5, h6, h7, h8, h9⟩, by simpa using hStray⟩
termination_by 3 * rest.length + 2

theorem parseIf_text (ifSpan : Span) (toks : List Lex.Token) {p : Parsed Expr toks.length}
    (h : parseIf parseLet ifSpan toks = .ok p) {k : String} (hk : lower k = "if") :
    ∃ ts, codes toks = ts ++ codes p.rest ∧ ExprText True parseLet p.value (.word k :: ts) := by
  rw [parseIf.eq_def] at h
  obtain ⟨b, hb, h⟩ := ok_of_bind h
  have hShort := b.shorter
  obtain ⟨ts, w, hThen, hw, hMem, hThenBody⟩ := parseBlockUntil_text _ _ _ _ hb
  split at h
  · rename_i hElse
    obtain ⟨e, he, h⟩ := ok_of_bind h
    obtain rfl := Except.ok.inj h
    obtain ⟨us, v, hRest, hv, hMem', hElseBody⟩ := parseBlockUntil_text _ _ _ _ he
    have hv' : lower v = "then" := by rw [hv, List.mem_singleton.mp hMem']
    refine ⟨ts ++ .word w :: us ++ [.word v], ?_, ?_⟩
    · rw [hThen, hRest]
      simp
    · exact .ifElse hk (hw.trans hElse) hv' hThenBody hElseBody
  · rename_i hElse
    obtain rfl := Except.ok.inj h
    have hw' : lower w = "then" := by
      rw [hw]
      simpa [hElse] using hMem
    refine ⟨ts ++ [.word w], ?_, ?_⟩
    · rw [hThen]
      simp
    · exact .ifThen hk hw' hThenBody
termination_by 3 * toks.length + 1

theorem parseBegin_text (beginSpan : Span) (toks : List Lex.Token) {p : Parsed Expr toks.length}
    (h : parseBegin parseLet beginSpan toks = .ok p) {k : String} (hk : lower k = "begin") :
    ∃ ts, codes toks = ts ++ codes p.rest ∧ ExprText True parseLet p.value (.word k :: ts) := by
  rw [parseBegin.eq_def] at h
  obtain ⟨b, hb, h⟩ := ok_of_bind h
  have hShort := b.shorter
  obtain ⟨ts, w, hFirst, hw, hMem, hFirstBody⟩ := parseBlockUntil_text _ _ _ _ hb
  have hEnd : codes toks = ts ++ [.word w] ++ codes b.rest := by
    rw [hFirst]
    simp
  dsimp only at h
  split at h
  · rename_i hWord
    obtain rfl := Except.ok.inj h
    exact ⟨ts ++ [.word w], hEnd, .beginUntil hk (hw.trans hWord) hFirstBody⟩
  · rename_i hWord
    obtain rfl := Except.ok.inj h
    exact ⟨ts ++ [.word w], hEnd, .beginAgain hk (hw.trans hWord) hFirstBody⟩
  · rename_i hUntil hAgain
    obtain ⟨r, hr, h⟩ := ok_of_bind h
    obtain rfl := Except.ok.inj h
    obtain ⟨us, v, hRest, hv, hMem', hBody⟩ := parseBlockUntil_text _ _ _ _ hr
    have hw' : lower w = "while" := by
      simp only [List.mem_cons, List.not_mem_nil, or_false] at hMem
      exact hw.trans ((hMem.resolve_left hUntil).resolve_left hAgain)
    have hv' : lower v = "repeat" := by rw [hv, List.mem_singleton.mp hMem']
    refine ⟨ts ++ .word w :: us ++ [.word v], ?_, ?_⟩
    · rw [hFirst, hRest]
      simp
    · exact .beginWhileRepeat hk hw' hv' hFirstBody hBody
termination_by 3 * toks.length + 1

theorem parseDo_text (doSpan : Span) (isQdo : Bool) (toks : List Lex.Token)
    {p : Parsed Expr toks.length} (h : parseDo parseLet doSpan isQdo toks = .ok p) {k : String}
    (hk : lower k = if isQdo then "?do" else "do") :
    ∃ ts, codes toks = ts ++ codes p.rest ∧ ExprText True parseLet p.value (.word k :: ts) := by
  rw [parseDo.eq_def] at h
  obtain ⟨b, hb, h⟩ := ok_of_bind h
  obtain rfl := Except.ok.inj h
  obtain ⟨ts, w, hLoop, hw, hMem, hBody⟩ := parseBlockUntil_text _ _ _ _ hb
  refine ⟨ts ++ [.word w], ?_, .doLoop hk ?_ hBody⟩
  · rw [hLoop]
    simp
  · by_cases hPlain : b.value.word = "loop"
    · rw [if_pos hPlain]
      exact hw.trans hPlain
    · rw [if_neg hPlain, hw]
      simpa [hPlain] using hMem
termination_by 3 * toks.length + 1

theorem parseCase_text (caseSpan : Span) (toks : List Lex.Token)
    {p : Parsed CaseParts toks.length} (h : parseCase parseLet caseSpan toks = .ok p) :
    ∃ ts, codes toks = ts ++ codes p.rest ∧
      CaseText True parseLet p.value.arms p.value.default ts := by
  rw [parseCase.eq_def] at h
  obtain ⟨b, hb, h⟩ := ok_of_bind h
  have hShort := b.shorter
  obtain ⟨ts, w, hFirst, hw, hMem, hFirstBody⟩ := parseBlockUntil_text _ _ _ _ hb
  split at h
  · rename_i hOf
    obtain ⟨a, ha, h⟩ := ok_of_bind h
    have hShort' := a.shorter
    obtain ⟨c, hc, h⟩ := ok_of_bind h
    obtain rfl := Except.ok.inj h
    obtain ⟨us, v, hArm, hv, hMem', hArmBody⟩ := parseBlockUntil_text _ _ _ _ ha
    obtain ⟨vs, hRest, hArms⟩ := parseCase_text _ _ hc
    have hv' : lower v = "endof" := by rw [hv, List.mem_singleton.mp hMem']
    refine ⟨ts ++ .word w :: us ++ .word v :: vs, ?_, ?_⟩
    · rw [hFirst, hArm, hRest]
      simp
    · exact .arm (hw.trans hOf) hv' hFirstBody hArmBody hArms
  · rename_i hEnd
    obtain rfl := Except.ok.inj h
    refine ⟨ts ++ [.word w], ?_, ?_⟩
    · rw [hFirst]
      simp
    · cases hBody : b.value.body with
      | nil =>
        rw [hBody] at hFirstBody
        cases hFirstBody
        exact .endcase (hw.trans hEnd)
      | cons e es =>
        rw [hBody] at hFirstBody
        exact .implicit (hw.trans hEnd) (by simp) hFirstBody
  · rename_i hOf hEnd
    obtain ⟨d, hd, h⟩ := ok_of_bind h
    obtain rfl := Except.ok.inj h
    obtain ⟨us, v, hRest, hv, hMem', hDefault⟩ := parseBlockUntil_text _ _ _ _ hd
    have hw' : lower w = "default" ∨ lower w = "other" := by
      simp only [List.mem_cons, List.not_mem_nil, or_false] at hMem
      rcases hMem.resolve_left hOf with hDefault | hOther | hEndcase
      · exact .inl (hw.trans hDefault)
      · exact .inr (hw.trans hOther)
      · exact absurd hEndcase hEnd
    have hv' : lower v = "endcase" := by rw [hv, List.mem_singleton.mp hMem']
    refine ⟨ts ++ .word w :: us ++ [.word v], ?_, ?_⟩
    · rw [hFirst, hRest]
      simp
    · exact .default hw' hv' (.inl trivial) hFirstBody hDefault
termination_by 3 * toks.length + 1

theorem parseBlockUntil_text (opener : String) (openedAt : Span) (terminators : List String)
    (toks : List Lex.Token) {p : Parsed Block toks.length}
    (h : parseBlockUntil parseLet opener openedAt terminators toks = .ok p) :
    BlockText parseLet terminators p.value (codes toks) (codes p.rest) := by
  rw [parseBlockUntil.eq_def] at h
  dsimp only at h
  split at h
  · cases h
  · rename_i t span rest hShort hNext
    have hCodes := nextCode_codes hNext
    have hBody : ∀ {q : Parsed Block toks.length}, t ≠ .word ";" →
        (do
          let e ← exprOne parseLet t span rest
          have he : e.rest.length < toks.length := Nat.lt_of_lt_of_le e.shorter hShort
          let b ← parseBlockUntil parseLet opener openedAt terminators e.rest
          return (⟨⟨e.value :: b.value.body, b.value.word, b.value.span⟩, b.rest,
            Nat.lt_trans b.shorter he⟩ : Parsed Block toks.length)) = .ok q →
        BlockText parseLet terminators q.value (codes toks) (codes q.rest) := by
      intro q hStop hRun
      obtain ⟨e, he, hRun⟩ := ok_of_bind hRun
      have hLess := e.shorter
      obtain ⟨b, hb, hRun⟩ := ok_of_bind hRun
      obtain rfl := Except.ok.inj hRun
      obtain ⟨us, hRest, hExpr⟩ := exprOne_text t span rest he hStop
      obtain ⟨ts, w, hTail, hw, hMem, hTailBody⟩ := parseBlockUntil_text _ _ _ _ hb
      refine ⟨(t :: us) ++ ts, w, ?_, hw, hMem, .cons hExpr hTailBody⟩
      rw [hCodes]
      show t :: codes rest = _
      rw [hRest, hTail]
      simp
    split at h
    · rename_i w
      split at h
      · rename_i hTerm
        obtain rfl := Except.ok.inj h
        exact ⟨[], w, hCodes, rfl, by simpa using hTerm, .nil⟩
      · split at h
        · cases h
        · rename_i hStop
          exact hBody (fun hEq => hStop (Lex.Tok.word.inj hEq)) h
    · rename_i hWord
      exact hBody (fun hEq => hWord _ hEq) h
termination_by 3 * toks.length
end

/-! The same for the items. -/

theorem exprsText_append {drops : Prop} {es es' : List Expr} {ts us : List Lex.Tok}
    (h : ExprsText drops parseLet es ts) (h' : ExprsText drops parseLet es' us) :
    ExprsText drops parseLet (es ++ es') (ts ++ us) := by
  induction es generalizing ts with
  | nil =>
    cases h
    exact h'
  | cons e es ih =>
    cases h with
    | cons hHead hTail =>
      rw [List.append_assoc]
      exact .cons hHead (ih hTail)

/-- The text of a body and of its first part are parts of the text of the whole. -/
theorem exprsText_split {drops : Prop} {es es' : List Expr} {ts : List Lex.Tok}
    (h : ExprsText drops parseLet (es ++ es') ts) :
    ∃ us vs, ts = us ++ vs ∧ ExprsText drops parseLet es us ∧ ExprsText drops parseLet es' vs := by
  induction es generalizing ts with
  | nil => exact ⟨[], ts, rfl, .nil, h⟩
  | cons e es ih =>
    cases h with
    | @cons _ _ hs _ hHead hTail =>
      obtain ⟨us, vs, rfl, hFirst, hSecond⟩ := ih hTail
      exact ⟨hs ++ us, vs, by rw [List.append_assoc], .cons hHead hFirst, hSecond⟩

theorem parseBody_text (opened : Span) (forbidColon : Bool) (toks : List Lex.Token)
    {p : Parsed (List Expr × Span) toks.length}
    (h : parseBody parseLet opened forbidColon toks = .ok p) :
    ∃ ts, codes toks = ts ++ .word ";" :: codes p.rest ∧ ExprsText True parseLet p.value.1 ts ∧
      (forbidColon = true → NoColon p.value.1) := by
  rw [parseBody.eq_def] at h
  dsimp only at h
  split at h
  · cases h
  · rename_i t span rest hShort hNext
    have hCodes := nextCode_codes hNext
    have hMore : ∀ {q : Parsed (List Expr × Span) toks.length}, t ≠ .word ";" →
        (forbidColon = true → t ≠ .word ":") →
        (do
          let e ← exprOne parseLet t span rest
          have he : e.rest.length < toks.length := Nat.lt_of_lt_of_le e.shorter hShort
          let b ← parseBody parseLet opened forbidColon e.rest
          return (⟨(e.value :: b.value.1, b.value.2), b.rest, Nat.lt_trans b.shorter he⟩ :
            Parsed (List Expr × Span) toks.length)) = .ok q →
        ∃ ts, codes toks = ts ++ .word ";" :: codes q.rest ∧ ExprsText True parseLet q.value.1 ts ∧
          (forbidColon = true → NoColon q.value.1) := by
      intro q hStop hNotColon hRun
      obtain ⟨e, he, hRun⟩ := ok_of_bind hRun
      have hLess : e.rest.length < toks.length := Nat.lt_of_lt_of_le e.shorter hShort
      obtain ⟨b, hb, hRun⟩ := ok_of_bind hRun
      obtain rfl := Except.ok.inj hRun
      obtain ⟨us, hRest, hExpr⟩ := exprOne_text t span rest he hStop
      obtain ⟨ts, hTail, hBody, hColon⟩ := parseBody_text opened forbidColon e.rest hb
      refine ⟨(t :: us) ++ ts, ?_, .cons hExpr hBody, ?_⟩
      · rw [hCodes]
        show t :: codes rest = _
        rw [hRest, hTail]
        simp
      · intro hf e' he' sp hEq
        rcases List.mem_cons.mp he' with rfl | he'
        · rw [hEq] at hExpr
          cases hExpr
          exact hNotColon hf rfl
        · exact hColon hf e' he' sp hEq
    split at h
    · split at h
      · rename_i hStop
        obtain rfl := Except.ok.inj h
        exact ⟨[], by rw [hCodes, hStop]; rfl, .nil, fun _ e he => by cases he⟩
      · rename_i hStop
        split at h
        · cases h
        · rename_i hForbid
          refine hMore (fun hEq => hStop (Lex.Tok.word.inj hEq)) ?_ h
          exact fun hf hEq => hForbid ⟨Lex.Tok.word.inj hEq, hf⟩
    · rename_i hWord
      exact hMore (fun hEq => hWord _ hEq) (fun _ hEq => hWord _ hEq) h
termination_by toks.length

theorem effectAfter_codes (toks : List Lex.Token) : codes (effectAfter toks).2.rest = codes toks := by
  unfold effectAfter
  split
  · split <;> rfl
  · rfl

theorem headLocals_text {toks : List Lex.Token} {p : Parsed (List LocalDecl) (toks.length + 1)}
    (h : headLocals toks = .ok p) :
    ∃ ts, codes toks = ts ++ codes p.rest ∧ HeadText True p.value ts ∧
      (ts = [] → (codes p.rest).head? ≠ some (.word "\x7b:")) := by
  unfold headLocals at h
  split at h
  · rename_i w span rest hShort hNext
    split at h
    · rename_i hOpen
      obtain ⟨q, hq, rfl⟩ := ok_of_map h
      obtain ⟨ts, hRest, hNames⟩ := parseLocalsBlock_text span rest hq
      refine ⟨.word "\x7b:" :: ts, ?_, .block hNames (.inl trivial), by simp⟩
      rw [nextCode_codes hNext, hOpen]
      exact congrArg _ hRest
    · rename_i hOpen
      obtain rfl := Except.ok.inj h
      refine ⟨[], rfl, .none, fun _ => ?_⟩
      rw [nextCode_codes hNext]
      simpa using hOpen
  · rename_i hOther
    obtain rfl := Except.ok.inj h
    refine ⟨[], rfl, .none, fun _ => ?_⟩
    cases hNext : nextCode toks with
    | none =>
      rw [nextCode_none hNext]
      simp
    | some q =>
      rw [nextCode_codes hNext]
      intro hEq
      obtain ⟨⟨t, span⟩, rest, hShort⟩ := q
      obtain rfl : t = .word "\x7b:" := Option.some.inj hEq
      exact hOther _ _ _ _ hNext

/-- What a colon definition and a method read behind their names. -/
theorem body_text {toks toks' : List Lex.Token} {locals : Parsed (List LocalDecl) (toks.length + 1)}
    (hLocals : headLocals toks = .ok locals) {opened : Span} {forbidColon : Bool}
    {body : Parsed (List Expr × Span) locals.rest.length}
    (hBody : parseBody parseLet opened forbidColon locals.rest = .ok body) (h : toks' = body.rest) :
    ∃ hs bs, codes toks = hs ++ bs ++ [.word ";"] ++ codes toks' ∧
      BodyText True parseLet locals.value body.value.1 hs bs ∧
      (forbidColon = true → NoColon body.value.1) := by
  subst h
  obtain ⟨hs, hHeadCodes, hHead, hOpen⟩ := headLocals_text hLocals
  obtain ⟨bs, hBodyCodes, hExprs, hColon⟩ := parseBody_text opened forbidColon locals.rest hBody
  refine ⟨hs, bs, ?_, ⟨hHead, hExprs, fun hNone => ?_⟩, hColon⟩
  · rw [hHeadCodes, hBodyCodes]
    simp
  · have hFirst := hOpen hNone
    rw [hBodyCodes] at hFirst
    cases bs with
    | nil => simp
    | cons t bs => exact hFirst

theorem colonDefinition_text {colonSpan : Span} {toks : List Lex.Token}
    {p : Parsed Item toks.length} (h : colonDefinition parseLet colonSpan toks = .ok p) {k : String}
    (hk : lower k = ":") :
    ∃ ts, codes toks = ts ++ codes p.rest ∧ ItemText True parseLet p.value (.word k :: ts) := by
  unfold colonDefinition at h
  obtain ⟨name, hName, h⟩ := ok_of_bind h
  obtain ⟨locals, hLocals, h⟩ := ok_of_bind h
  obtain ⟨body, hBody, h⟩ := ok_of_bind h
  obtain rfl := Except.ok.inj h
  have hEffect := effectAfter_codes name.rest
  obtain ⟨hs, bs, hCodes, hText, hColon⟩ := body_text hLocals hBody rfl
  refine ⟨.word name.value.text :: hs ++ bs ++ [.word ";"], ?_, ?_⟩
  · rw [nameAfter_codes hName, ← hEffect, hCodes]
    simp
  · show ItemText True parseLet (colonItem _) _
    unfold colonItem
    dsimp only
    split
    · rename_i constructor doesBody hParts
      exact .template (t := ⟨name.value.text, name.value.span, _, constructor, doesBody, _⟩)
        hk hText (hColon rfl) hParts (.inl trivial)
    · rename_i hParts
      exact .definition (d := ⟨name.value.text, name.value.span, _, locals.value, body.value.1, _⟩)
        hk hText (hColon rfl) hParts

theorem lower_of_eqIgnore {w c : String} (h : eqIgnoreAsciiCase w c = true) (hc : lower c = c) :
    lower w = c := by
  have hLower : lower w = lower c := by simpa [eqIgnoreAsciiCase] using h
  rw [hLower, hc]

theorem parseSlots_text (kwSpan : Span) (toks : List Lex.Token)
    {p : Parsed (List SlotDef × Span) toks.length} (h : parseSlots kwSpan toks = .ok p) :
    ∃ ts, codes toks = ts ++ codes p.rest ∧ SlotsText p.value.1 ts := by
  rw [parseSlots.eq_def] at h
  split at h
  · cases h
  · rename_i w span rest hShort hNext
    have hCodes := nextCode_codes hNext
    split at h
    · rename_i hStop
      obtain rfl := Except.ok.inj h
      exact ⟨[.word w], hCodes, hStop ▸ .stop⟩
    · split at h
      · rename_i hSlot
        split at h
        · rename_i slot slotSpan rest' hShort' hNext'
          obtain ⟨q, hq, rfl⟩ := ok_of_map h
          obtain ⟨ts, hRest, hSlots⟩ := parseSlots_text kwSpan rest' hq
          refine ⟨.word w :: .word slot :: ts, ?_, .slot (lower_of_eqIgnore hSlot (by decide)) hSlots⟩
          rw [hCodes]
          show _ :: codes rest = _
          rw [nextCode_codes hNext']
          exact congrArg _ (congrArg _ hRest)
        · cases h
      · cases h
  · cases h
termination_by toks.length

theorem extendsClause_text {kwSpan : Span} {toks : List Lex.Token}
    {p : Parsed (Option String) (toks.length + 1)} (h : extendsClause kwSpan toks = .ok p) :
    ∃ ts, codes toks = ts ++ codes p.rest ∧ ParentText p.value ts := by
  unfold extendsClause at h
  split at h
  · rename_i w span rest hShort hNext
    split at h
    · rename_i hExtends
      split at h
      · rename_i parent span' rest' hShort' hNext'
        obtain rfl := Except.ok.inj h
        refine ⟨[.word w, .word parent], ?_, .some (lower_of_eqIgnore hExtends (by decide))⟩
        rw [nextCode_codes hNext]
        show _ :: codes rest = _
        rw [nextCode_codes hNext']
        rfl
      · cases h
    · obtain rfl := Except.ok.inj h
      exact ⟨[], rfl, .none⟩
  · obtain rfl := Except.ok.inj h
    exact ⟨[], rfl, .none⟩

theorem classDefinition_text {drops : Prop} {kwSpan : Span} {toks : List Lex.Token} {p : Parsed Item toks.length}
    (h : classDefinition kwSpan toks = .ok p) {k : String} (hk : lower k = "class:") :
    ∃ ts, codes toks = ts ++ codes p.rest ∧ ItemText drops parseLet p.value (.word k :: ts) := by
  unfold classDefinition at h
  obtain ⟨name, hName, h⟩ := ok_of_bind h
  obtain ⟨parent, hParent, h⟩ := ok_of_bind h
  obtain ⟨slots, hSlots, h⟩ := ok_of_bind h
  obtain rfl := Except.ok.inj h
  obtain ⟨ps, hParentCodes, hParentText⟩ := extendsClause_text hParent
  obtain ⟨ss, hSlotsCodes, hSlotsText⟩ := parseSlots_text kwSpan parent.rest hSlots
  refine ⟨.word name.value.text :: ps ++ ss, ?_, .class_ hk hParentText hSlotsText⟩
  rw [nameAfter_codes hName, hParentCodes, hSlotsCodes]
  simp

theorem requiredEffect_codes {keyword : String} {nameSpan : Span} {toks : List Lex.Token}
    {p : Parsed StackEffect toks.length} (h : requiredEffect keyword nameSpan toks = .ok p) :
    codes toks = codes p.rest := by
  unfold requiredEffect at h
  split at h
  · split at h
    · obtain rfl := Except.ok.inj h
      rfl
    · cases h
  · cases h

theorem genericDeclaration_text {drops : Prop} {kwSpan : Span} {toks : List Lex.Token}
    {p : Parsed Item toks.length} (h : genericDeclaration kwSpan toks = .ok p) {k : String}
    (hk : lower k = "generic:") :
    ∃ ts, codes toks = ts ++ codes p.rest ∧ ItemText drops parseLet p.value (.word k :: ts) := by
  unfold genericDeclaration at h
  obtain ⟨name, hName, h⟩ := ok_of_bind h
  obtain ⟨effect, hEffect, h⟩ := ok_of_bind h
  obtain rfl := Except.ok.inj h
  refine ⟨[.word name.value.text], ?_, .generic hk⟩
  rw [nameAfter_codes hName, requiredEffect_codes hEffect]
  rfl

theorem methodDefinition_text {kwSpan : Span} {keyword : String} {kind : MethodKind}
    {toks : List Lex.Token} {p : Parsed Item toks.length}
    (h : methodDefinition parseLet kwSpan keyword kind toks = .ok p) {k : String}
    (hk : lower k = methodWord kind) :
    ∃ ts, codes toks = ts ++ codes p.rest ∧ ItemText True parseLet p.value (.word k :: ts) := by
  unfold methodDefinition at h
  obtain ⟨name, hName, h⟩ := ok_of_bind h
  obtain ⟨raw, hRaw, h⟩ := ok_of_bind h
  obtain ⟨locals, hLocals, h⟩ := ok_of_bind h
  obtain ⟨body, hBody, h⟩ := ok_of_bind h
  obtain rfl := Except.ok.inj h
  obtain ⟨hs, bs, hCodes, hText, -⟩ := body_text hLocals hBody rfl
  refine ⟨.word name.value.text :: hs ++ bs ++ [.word ";"], ?_, .method hk hText⟩
  rw [nameAfter_codes hName, requiredEffect_codes hRaw, hCodes]
  simp

/-- One count with its unit, and what it adds. -/
theorem allotWord_text {value : Int} {unit n : Nat} {toks : List Lex.Token} {hle : toks.length ≤ n}
    {p : Parsed (Nat × Span) n} (h : allotWord value unit toks hle = some p) :
    ∃ a, codes toks = .word a :: codes p.rest ∧ lower a = "allot" ∧
      p.value.1 = saturatingMul (asU32 value) unit := by
  unfold allotWord at h
  split at h
  · rename_i w span rest hShort hNext
    split at h
    · rename_i hWord
      obtain rfl := Option.some.inj h
      exact ⟨w, nextCode_codes hNext, lower_of_eqIgnore hWord (by decide), rfl⟩
    · cases h
  · cases h

theorem allotRun_text {toks : List Lex.Token} {p : Parsed (Nat × Span) toks.length}
    (h : allotRun toks = some p) :
    ∃ v base raw unit us a, codes toks = .int v base raw :: us ++ .word a :: codes p.rest ∧ 0 ≤ v ∧
      UnitText unit us ∧ lower a = "allot" ∧ p.value.1 = saturatingMul (asU32 v) unit := by
  unfold allotRun at h
  split at h
  · rename_i v base raw span rest hShort hNext
    have hCodes := nextCode_codes hNext
    split at h
    · cases h
    · rename_i hv
      have hAllot : ∀ {unit : Nat} {us : List Lex.Tok} {toks' : List Lex.Token}
          {hle : toks'.length ≤ toks.length}, UnitText unit us → codes rest = us ++ codes toks' →
          allotWord v unit toks' hle = some p →
          ∃ v base raw unit us a, codes toks = .int v base raw :: us ++ .word a :: codes p.rest ∧
            0 ≤ v ∧ UnitText unit us ∧ lower a = "allot" ∧
              p.value.1 = saturatingMul (asU32 v) unit := by
        intro unit us toks' hle hUnit hRest hRun
        obtain ⟨a, hText, hWord, hValue⟩ := allotWord_text hRun
        refine ⟨v, base, raw, unit, us, a, ?_, by omega, hUnit, hWord, hValue⟩
        rw [hCodes]
        show _ :: codes rest = _
        rw [hRest, hText]
        rfl
      have hLess := Nat.le_of_lt hShort
      split at h
      · rename_i w span' rest' hShort' hNext'
        have hLess' : rest'.length ≤ toks.length := by omega
        split at h
        · rename_i hCells
          exact @hAllot 8 _ rest' hLess' (.cells (lower_of_eqIgnore hCells (by decide)))
            (nextCode_codes hNext') h
        · split at h
          · rename_i hChars
            exact @hAllot 1 _ rest' hLess' (.chars (lower_of_eqIgnore hChars (by decide)))
              (nextCode_codes hNext') h
          · exact @hAllot 1 _ rest hLess .bytes rfl h
      · cases h
  · cases h

theorem allotRuns_text (allotted : Nat) (stop : Pos) (toks : List Lex.Token) :
    ∃ ts, codes toks = ts ++ codes (allotRuns allotted stop toks).rest ∧
      AllotsText True allotted (allotRuns allotted stop toks).value.1 ts := by
  rw [allotRuns.eq_def]
  split
  · exact ⟨[], rfl, .stop⟩
  · rename_i bytes span rest hShort hRun
    obtain ⟨v, base, raw, unit, us, a, hCodes, hv, hUnit, ha, hBytes⟩ := allotRun_text hRun
    obtain ⟨ts, hRest, hRuns⟩ := allotRuns_text (saturatingAdd allotted bytes) span.stop rest
    have hBytes' : bytes = saturatingMul (asU32 v) unit := hBytes
    refine ⟨.int v base raw :: us ++ .word a :: ts, ?_, ?_⟩
    · rw [hCodes]
      show _ :: us ++ .word a :: codes rest = _
      rw [hRest]
      simp [Parsed.weaken]
    · rw [hBytes'] at hRuns ⊢
      exact .run hv (.inl trivial) hUnit ha hRuns
termination_by toks.length

theorem createDefinition_text {kwSpan : Span} {toks : List Lex.Token} {p : Parsed Item toks.length}
    (h : createDefinition kwSpan toks = .ok p) {k : String} (hk : lower k = "create") :
    ∃ ts, codes toks = ts ++ codes p.rest ∧ ItemText True parseLet p.value (.word k :: ts) := by
  unfold createDefinition at h
  obtain ⟨name, hName, h⟩ := ok_of_bind h
  obtain rfl := Except.ok.inj h
  obtain ⟨ts, hRuns, hText⟩ := allotRuns_text 0 name.value.span.stop name.rest
  refine ⟨.word name.value.text :: ts, ?_, .create hk hText⟩
  rw [nameAfter_codes hName, hRuns]
  rfl

theorem variableDefinition_text {drops : Prop} {kwSpan : Span} {toks : List Lex.Token} {p : Parsed Item toks.length}
    (h : variableDefinition kwSpan toks = .ok p) {k : String} (hk : lower k = "variable") :
    ∃ ts, codes toks = ts ++ codes p.rest ∧ ItemText drops parseLet p.value (.word k :: ts) := by
  obtain ⟨name, hName, rfl⟩ := ok_of_map h
  exact ⟨[.word name.value.text], nameAfter_codes hName, .variable_ hk⟩

theorem needsDirective_text {drops : Prop} {kwSpan : Span} {toks : List Lex.Token} {p : Parsed Item toks.length}
    (h : needsDirective kwSpan toks = .ok p) {k : String} (hk : lower k = "needs") :
    ∃ ts, codes toks = ts ++ codes p.rest ∧ ItemText drops parseLet p.value (.word k :: ts) := by
  obtain ⟨name, hName, rfl⟩ := ok_of_map h
  exact ⟨[.word name.value.text], nameAfter_codes hName, .needs hk⟩

/-! The top-level loop. -/

theorem flushing_text {t : Lex.Tok}
    {read : Span → (toks : List Lex.Token) → Except ParseError (Parsed Item toks.length)}
    (hOpen : opener parseLet t = .flushing read) {span : Span} {toks : List Lex.Token}
    {p : Parsed Item toks.length} (h : read span toks = .ok p) :
    ∃ ts, codes toks = ts ++ codes p.rest ∧ ItemText True parseLet p.value (t :: ts) := by
  unfold opener at hOpen
  split at hOpen
  · rename_i w
    split at hOpen
    all_goals first
      | (injection hOpen with hRead
         subst hRead
         rename_i hk
         first
           | exact colonDefinition_text h hk
           | exact variableDefinition_text h hk
           | exact needsDirective_text h hk
           | exact createDefinition_text h hk
           | exact classDefinition_text h hk
           | exact genericDeclaration_text h hk
           | exact methodDefinition_text h hk)
      | cases hOpen
  · cases hOpen

theorem taking_text {t : Lex.Tok}
    {read : Span → Pending → (toks : List Lex.Token) → Except ParseError (Parsed Item toks.length)}
    (hOpen : opener parseLet t = .taking read) {span : Span} {pending : Pending}
    {toks : List Lex.Token} {p : Parsed Item toks.length} (h : read span pending toks = .ok p)
    {drops : Prop} {ps : List Lex.Tok} (hPending : ExprsText drops parseLet pending.exprs ps)
    (hPlain : NoDefiner pending.exprs) :
    ∃ n, codes toks = .word n :: codes p.rest ∧
      ItemText drops parseLet p.value (ps ++ [t, .word n]) ∧ ∀ c, p.value ≠ .create c := by
  have hConstant : ∀ {flavour : ConstFlavour} {k : String},
      constantDefinition flavour span pending toks = .ok p → lower k = constantWord flavour →
      ∃ n, codes toks = .word n :: codes p.rest ∧
        ItemText drops parseLet p.value (ps ++ [.word k, .word n]) ∧ ∀ c, p.value ≠ .create c := by
    intro flavour k hRun hk
    unfold constantDefinition at hRun
    cases hExprs : pending.exprs with
    | nil =>
      rw [hExprs] at hRun
      cases hRun
    | cons first rest =>
      rw [hExprs] at hRun hPending hPlain
      obtain ⟨name, hName, rfl⟩ := ok_of_map hRun
      exact ⟨name.value.text, nameAfter_codes hName, .constant hk (by simp) hPending hPlain rfl,
        fun c hEq => by cases hEq⟩
  have hValue : ∀ {k : String}, valueDefinition span pending toks = .ok p → lower k = "value" →
      ∃ n, codes toks = .word n :: codes p.rest ∧
        ItemText drops parseLet p.value (ps ++ [.word k, .word n]) ∧ ∀ c, p.value ≠ .create c := by
    intro k hRun hk
    unfold valueDefinition at hRun
    cases hExprs : pending.exprs with
    | nil =>
      rw [hExprs] at hRun
      cases hRun
    | cons first rest =>
      rw [hExprs] at hRun hPending hPlain
      obtain ⟨name, hName, rfl⟩ := ok_of_map hRun
      exact ⟨name.value.text, nameAfter_codes hName, .value hk (by simp) hPending hPlain,
        fun c hEq => by cases hEq⟩
  unfold opener at hOpen
  split at hOpen
  · rename_i w
    split at hOpen
    all_goals first
      | (injection hOpen with hRead
         subst hRead
         rename_i hk
         first
           | exact hConstant h hk
           | exact hValue h hk)
      | cases hOpen
  · cases hOpen

/-- The pending run in front of further items. -/
theorem pendingItems_text {pending : Pending} {ps us : List Lex.Tok} {drops : Prop} {items : List Item}
    (h : ExprsText drops parseLet pending.exprs ps) (hPlain : NoDefiner pending.exprs)
    (hItems : ItemsText drops parseLet items us) :
    ItemsText drops parseLet (pending.items ++ items) (ps ++ us) := by
  cases hExprs : pending.exprs with
  | nil =>
    rw [hExprs] at h
    cases h
    unfold Pending.items
    rw [hExprs]
    exact hItems
  | cons e es =>
    have hNe : pending.exprs ≠ [] := by simp [hExprs]
    obtain ⟨start, hStart⟩ := Option.isSome_iff_exists.mp (pending.started hNe)
    have hPending : pending.items = [.topLevel pending.exprs
        ⟨start.start, (pending.exprs.getLast hNe).span.stop⟩] := by
      unfold Pending.items
      rw [List.getLast?_eq_some_getLast hNe, hStart]
    rw [hPending]
    exact .cons (.topLevel hNe h hPlain) hItems fun c hEq => by cases hEq

theorem flushed_exprs (pending : Pending) : pending.flushed.exprs = [] := by
  unfold Pending.flushed
  split <;> rfl

/-- The size that a collection takes is the last pending literal. -/
theorem collectionSize_text {kind : CollectionKind} {kwSpan : Span} {pending : Pending}
    {size : Nat × Span} (h : collectionSize kind kwSpan pending.exprs.getLast? = .ok size)
    {ps : List Lex.Tok} {drops : Prop} (hPending : ExprsText drops parseLet pending.exprs ps) :
    ∃ us v base raw, ps = us ++ [.int v base raw] ∧ ExprsText drops parseLet pending.pop.exprs us ∧
      0 ≤ v ∧ asU32 v = size.1 := by
  unfold collectionSize at h
  split at h
  · cases h
  · rename_i v span hLast
    split at h
    · rename_i hv
      obtain rfl := Except.ok.inj h
      have hNe : pending.exprs ≠ [] := by
        intro hNil
        rw [hNil] at hLast
        cases hLast
      have hSplit : pending.exprs = pending.exprs.dropLast ++ [.lit (.int v span)] := by
        rw [List.getLast?_eq_some_getLast hNe] at hLast
        have hConcat := List.dropLast_concat_getLast hNe
        rw [Option.some.inj hLast] at hConcat
        exact hConcat.symm
      rw [hSplit] at hPending
      obtain ⟨us, vs, rfl, hInit, hEnd⟩ := exprsText_split hPending
      cases hEnd with
      | cons hHead hTail =>
        cases hTail
        cases hHead with
        | int => exact ⟨us, v, _, _, rfl, hInit, hv, rfl⟩
    · cases h
  · cases h

theorem collection_kind {t : Lex.Tok} {kind : CollectionKind}
    (hOpen : opener parseLet t = .collection kind) :
    ∃ k, t = .word k ∧ collectionKind (lower k) = some kind := by
  unfold opener at hOpen
  split at hOpen
  · rename_i w
    refine ⟨w, rfl, ?_⟩
    split at hOpen
    all_goals first
      | (injection hOpen with hKind
         subst hKind
         rename_i hk
         rw [hk]
         rfl)
      | cases hOpen
  · cases hOpen

theorem opener_expr {w : String} (hOpen : opener parseLet (.word w) = .expr) :
    lower w ∉ definers := by
  unfold opener at hOpen
  dsimp only at hOpen
  intro hMem
  simp only [definers, List.mem_cons, List.not_mem_nil, or_false] at hMem
  rcases hMem with h | h | h | h | h | h | h | h | h | h | h | h | h | h | h | h <;>
    (rw [h] at hOpen; cases hOpen)

theorem noDefiner_push {es : List Expr} (h : NoDefiner es) {e : Expr} {t : Lex.Tok} {ts : List Lex.Tok}
    {drops : Prop} (hText : ExprText drops parseLet e (t :: ts))
    (hOpen : opener parseLet t = .expr) : NoDefiner (es ++ [e]) := by
  intro e' he' name span hEq
  rcases List.mem_append.mp he' with he' | he'
  · exact h e' he' name span hEq
  · rw [← List.mem_singleton.mp he', hEq] at hText
    cases hText
    exact opener_expr hOpen

theorem nextCode_of_codes {toks : List Lex.Token} {t : Lex.Tok} {ts : List Lex.Tok}
    (h : codes toks = t :: ts) :
    ∃ span rest hShort, nextCode toks = some ⟨⟨t, span⟩, rest, hShort⟩ ∧ codes rest = ts := by
  cases hNext : nextCode toks with
  | none =>
    rw [nextCode_none hNext] at h
    cases h
  | some p =>
    have hCodes := nextCode_codes hNext
    rw [h] at hCodes
    obtain ⟨rfl, rfl⟩ := List.cons.inj hCodes
    exact ⟨p.value.span, p.rest, p.shorter, rfl, rfl⟩

/-- A count with its unit is taken. -/
theorem allotRun_run {toks : List Lex.Token} {v : Int} {base : Lex.NumBase} {raw a : String}
    {unit : Nat} {us more : List Lex.Tok} (hCodes : codes toks = .int v base raw :: us ++ .word a :: more)
    (hv : 0 ≤ v) (hUnit : UnitText unit us) (ha : lower a = "allot") :
    ∃ span rest hShort, codes rest = more ∧
      allotRun toks = some ⟨(saturatingMul (asU32 v) unit, span), rest, hShort⟩ := by
  obtain ⟨span, rest, hShort, hNext, hRest⟩ := nextCode_of_codes hCodes
  have hIs : ∀ {w c : String}, lower w = c → lower c = c → eqIgnoreAsciiCase w c = true := by
    intro w c hw hc
    simp [eqIgnoreAsciiCase, hw, hc]
  have hNot : ∀ {w c d : String}, lower w = c → lower d ≠ c → ¬ eqIgnoreAsciiCase w d = true := by
    intro w c d hw hd hEq
    have hLower : lower w = lower d := by simpa [eqIgnoreAsciiCase] using hEq
    exact hd (hLower.symm.trans hw)
  unfold allotRun
  rw [hNext]
  dsimp only
  rw [if_neg (by omega)]
  cases hUnit with
  | @cells w hw =>
    obtain ⟨span', rest', hShort', hNext', hRest'⟩ := nextCode_of_codes hRest
    obtain ⟨span'', rest'', hShort'', hNext'', hMore⟩ := nextCode_of_codes hRest'
    rw [hNext']
    dsimp only
    rw [if_pos (hIs hw (by decide)), hNext'']
    dsimp only
    rw [if_pos (hIs ha (by decide))]
    exact ⟨span'', rest'', by omega, hMore, rfl⟩
  | @chars w hw =>
    obtain ⟨span', rest', hShort', hNext', hRest'⟩ := nextCode_of_codes hRest
    obtain ⟨span'', rest'', hShort'', hNext'', hMore⟩ := nextCode_of_codes hRest'
    rw [hNext']
    dsimp only
    rw [if_neg (hNot hw (by decide)), if_pos (hIs hw (by decide)), hNext'']
    dsimp only
    rw [if_pos (hIs ha (by decide))]
    exact ⟨span'', rest'', by omega, hMore, rfl⟩
  | bytes =>
    obtain ⟨span', rest', hShort', hNext', hMore⟩ := nextCode_of_codes hRest
    rw [hNext']
    dsimp only
    rw [if_neg (hNot ha (by decide)), if_neg (hNot ha (by decide)), if_pos (hIs ha (by decide))]
    exact ⟨span', rest', by omega, hMore, rfl⟩

theorem allotRun_none {toks : List Lex.Token} (h : allotRun toks = none) : ¬ StartsRun (codes toks) := by
  rintro ⟨v, base, raw, unit, us, a, more, hCodes, hv, hUnit, ha⟩
  obtain ⟨span, rest, hShort, -, hRun⟩ := allotRun_run hCodes hv hUnit ha
  rw [h] at hRun
  cases hRun

/-- Behind the runs that are taken no run stands. -/
theorem allotRuns_greedy (allotted : Nat) (stop : Pos) (toks : List Lex.Token) :
    ¬ StartsRun (codes (allotRuns allotted stop toks).rest) := by
  rw [allotRuns.eq_def]
  split
  · rename_i hNone
    exact allotRun_none hNone
  · rename_i bytes span rest hShort hRun
    exact allotRuns_greedy (saturatingAdd allotted bytes) span.stop rest
termination_by toks.length

theorem flushing_greedy {t : Lex.Tok}
    {read : Span → (toks : List Lex.Token) → Except ParseError (Parsed Item toks.length)}
    (hOpen : opener parseLet t = .flushing read) {span : Span} {toks : List Lex.Token}
    {p : Parsed Item toks.length} (h : read span toks = .ok p) :
    ∀ c, p.value = .create c → ¬ StartsRun (codes p.rest) := by
  intro c hCreate
  obtain ⟨ts, -, hText⟩ := flushing_text hOpen h
  rw [hCreate] at hText
  generalize hAll : t :: ts = all at hText
  cases hText with
  | @create k _ us hk hRuns =>
    obtain ⟨rfl, -⟩ := List.cons.inj hAll
    have hRead : read = createDefinition := by
      unfold opener at hOpen
      dsimp only at hOpen
      rw [hk] at hOpen
      exact (Opener.flushing.inj hOpen).symm
    subst hRead
    unfold createDefinition at h
    obtain ⟨name, hName, h⟩ := ok_of_bind h
    obtain rfl := Except.ok.inj h
    exact allotRuns_greedy 0 name.value.span.stop name.rest

theorem programFrom_text (pending : Pending) (toks : List Lex.Token) {items : List Item}
    (h : programFrom parseLet pending toks = .ok items) {ps : List Lex.Tok}
    (hPending : ExprsText True parseLet pending.exprs ps) (hPlain : NoDefiner pending.exprs) :
    ItemsText True parseLet items (ps ++ codes toks) := by
  rw [programFrom.eq_def] at h
  split at h
  · rename_i hNext
    obtain rfl := Except.ok.inj h
    rw [nextCode_none hNext]
    have hItems : ItemsText True parseLet (pending.items ++ []) (ps ++ []) :=
      pendingItems_text hPending hPlain .nil
    rw [List.append_nil] at hItems
    exact hItems
  · rename_i t span rest hShort hNext
    have hCodes : codes toks = t :: codes rest := nextCode_codes hNext
    rw [hCodes]
    split at h
    · cases h
    · -- an expression: it joins the pending run
      rename_i hOpen
      obtain ⟨e, he, h⟩ := ok_of_bind h
      have hLess : e.rest.length < toks.length := Nat.lt_of_lt_of_le e.shorter hShort
      have hStop : t ≠ .word ";" := by
        rintro rfl
        cases hOpen
      obtain ⟨ts, hRest, hExpr⟩ := exprOne_text t span rest he hStop
      have hOne : ExprsText True parseLet [e.value] (t :: ts) := by
        rw [← List.append_nil (t :: ts)]
        exact .cons hExpr .nil
      have hItems := programFrom_text (pending.push e.value span) e.rest h
        (exprsText_append hPending hOne) (noDefiner_push hPlain hExpr hOpen)
      rw [hRest]
      simpa using hItems
    · rename_i read hOpen
      -- the pending run is an item of its own, in front of the definition
      obtain ⟨item, hItem, h⟩ := ok_of_bind h
      have hLess : item.rest.length < toks.length := Nat.lt_trans item.shorter hShort
      obtain ⟨more, hMore, h⟩ := ok_of_bind h
      obtain rfl := Except.ok.inj h
      obtain ⟨ts, hRest, hText⟩ := flushing_text hOpen hItem
      have hEmpty : ExprsText True parseLet pending.flushed.exprs [] := by
        rw [flushed_exprs]
        exact .nil
      have hNone : NoDefiner pending.flushed.exprs := by
        rw [flushed_exprs]
        exact fun e he => by cases he
      have hItems := programFrom_text pending.flushed item.rest hMore hEmpty hNone
      rw [hRest]
      exact pendingItems_text hPending hPlain (.cons hText hItems (flushing_greedy hOpen hItem))
    · rename_i kind hOpen
      obtain ⟨item, hItem, h⟩ := ok_of_bind h
      have hLess : item.rest.length < toks.length := Nat.lt_trans item.shorter hShort
      obtain ⟨more, hMore, h⟩ := ok_of_bind h
      obtain rfl := Except.ok.inj h
      unfold collectionDefinition at hItem
      obtain ⟨size, hSize, hItem⟩ := ok_of_bind hItem
      obtain ⟨name, hName, hItem⟩ := ok_of_bind hItem
      obtain rfl := Except.ok.inj hItem
      -- the size is the last literal of the pending run, which leaves it
      obtain ⟨us, v, base, raw, rfl, hInit, hv, hCount⟩ := collectionSize_text hSize hPending
      obtain ⟨k, rfl, hKind⟩ := collection_kind hOpen
      have hEmpty : ExprsText True parseLet pending.pop.flushed.exprs [] := by
        rw [flushed_exprs]
        exact .nil
      have hNone : NoDefiner pending.pop.flushed.exprs := by
        rw [flushed_exprs]
        exact fun e he => by cases he
      have hItems := programFrom_text pending.pop.flushed _ hMore hEmpty hNone
      have hOne : ItemText True parseLet
          (.collection ⟨name.value.text, name.value.span, kind, size.1,
            ⟨size.2.start, name.value.span.stop⟩⟩)
          [.int v base raw, .word k, .word name.value.text] :=
        .collection hKind hv hCount (.inl trivial)
      have hPop : NoDefiner pending.pop.exprs := fun e he => hPlain e ((List.dropLast_sublist _).subset he)
      have hAll := pendingItems_text hInit hPop (.cons hOne hItems fun c hEq => by cases hEq)
      rw [nameAfter_codes hName]
      simp only [List.append_assoc, List.cons_append, List.nil_append] at hAll ⊢
      exact hAll
    · rename_i read hOpen
      obtain ⟨item, hItem, h⟩ := ok_of_bind h
      have hLess : item.rest.length < toks.length := Nat.lt_trans item.shorter hShort
      obtain ⟨more, hMore, h⟩ := ok_of_bind h
      obtain rfl := Except.ok.inj h
      -- CONSTANT and VALUE take the whole pending run
      obtain ⟨n, hRest, hText, hNot⟩ := taking_text hOpen hItem hPending hPlain
      have hItems := programFrom_text .empty item.rest hMore .nil fun e he => by cases he
      rw [hRest]
      have hAll := ItemsText.cons hText hItems fun c hEq => absurd hEq (hNot c)
      simpa using hAll
termination_by toks.length

/-- What the parser accepts is a sentence: every construct it opens is closed, and the words that close
or divide one stand in it. -/
theorem parse_text {toks : List Lex.Token} {prog : Program} (h : parse parseLet toks = .ok prog) :
    ItemsText True parseLet prog.items (codes toks) := by
  obtain ⟨items, hItems, rfl⟩ := ok_of_map h
  exact programFrom_text .empty toks hItems .nil fun e he => by cases he

end

end FactorForth.Correctness
