import FactorForth.Compiler.LetLang
import FactorForth.Library.Outcome

/-! The grammar of LET forms over their tokens, and that whatever the LET parser accepts is a sentence
of it. -/

namespace FactorForth.Correctness.LetForms
open FactorForth.Library FactorForth.Compiler.LetLang
open FactorForth.Compiler (FloatLit)

/-- What a sentence is of: an expression at some level, or expressions with commas between them. -/
inductive Phrase where
  | level (l : Level) (e : Expr)
  | pow (e : Expr)
  | unary (e : Expr)
  | primary (e : Expr)
  | list (es : List Expr)

def Phrase.operand : Level → Expr → Phrase
  | .compare, e => .level .add e
  | .add, e => .level .mul e
  | .mul, e => .pow e

inductive Sentence : Phrase → List Tok → Prop where
  | operand {l : Level} {e : Expr} {ts : List Tok} (h : Sentence (.operand l e) ts) :
      Sentence (.level l e) ts
  | bin {l : Level} {lhs rhs : Expr} {op : BinOp} {t : Tok} {ts us : List Tok}
      (hLeft : Sentence (.level l lhs) ts) (hOp : l.op t = some op)
      (hRight : Sentence (.operand l rhs) us) : Sentence (.level l (.bin op lhs rhs)) (ts ++ t :: us)
  | base {e : Expr} {ts : List Tok} (h : Sentence (.unary e) ts) : Sentence (.pow e) ts
  | power {lhs rhs : Expr} {ts us : List Tok} (hBase : Sentence (.unary lhs) ts)
      (hExponent : Sentence (.pow rhs) us) : Sentence (.pow (.bin .pow lhs rhs)) (ts ++ .starStar :: us)
  | neg {e : Expr} {ts : List Tok} (h : Sentence (.unary e) ts) :
      Sentence (.unary (.neg e)) (.minus :: ts)
  | primary {e : Expr} {ts : List Tok} (h : Sentence (.primary e) ts) : Sentence (.unary e) ts
  | num {n : FloatLit} : Sentence (.primary (.lit n)) [.num n]
  | var {name : String} : Sentence (.primary (.var name)) [.ident name]
  | paren {e : Expr} {ts : List Tok} (h : Sentence (.level .compare e) ts) :
      Sentence (.primary e) (.lParen :: (ts ++ [.rParen]))
  | constant {name : String} : Sentence (.primary (.call name [])) [.ident name, .lParen, .rParen]
  | call {name : String} {es : List Expr} {ts : List Tok} (h : Sentence (.list es) ts) :
      Sentence (.primary (.call name es)) (.ident name :: .lParen :: (ts ++ [.rParen]))
  | last {e : Expr} {ts : List Tok} (h : Sentence (.level .compare e) ts) : Sentence (.list [e]) ts
  | more {e : Expr} {es : List Expr} {ts us : List Tok} (h : Sentence (.level .compare e) ts)
      (hMore : Sentence (.list es) us) : Sentence (.list (e :: es)) (ts ++ .comma :: us)

/-- Output names with their closing parenthesis. -/
inductive Outputs : List String → List Tok → Prop where
  | close : Outputs [] [.rParen]
  | comma {names : List String} {ts : List Tok} (h : Outputs names ts) : Outputs names (.comma :: ts)
  | name {name : String} {names : List String} {ts : List Tok} (h : Outputs names ts) :
      Outputs (name :: names) (.ident name :: ts)

inductive Clause : Option DestructureClause → List Tok → Prop where
  | none : Clause none []
  | bare {cls : String} : Clause (some ⟨cls, []⟩) [.colon, .ident cls]
  | slots {cls : String} {slots : List String} (h : slots ≠ []) :
      Clause (some ⟨cls, slots⟩) (.colon :: .ident cls :: .asKw :: slots.map .ident)

/-- Inputs with their closing parenthesis. -/
inductive Inputs : List LetInput → List Tok → Prop where
  | close : Inputs [] [.rParen]
  | comma {inputs : List LetInput} {ts : List Tok} (h : Inputs inputs ts) :
      Inputs inputs (.comma :: ts)
  | input {name : String} {clause : Option DestructureClause} {inputs : List LetInput}
      {ts us : List Tok} (hClause : Clause clause ts) (h : Inputs inputs us) :
      Inputs (⟨name, clause⟩ :: inputs) (.ident name :: (ts ++ us))

inductive Wheres : List (String × Expr) → List Tok → Prop where
  | none : Wheres [] []
  | one {name : String} {e : Expr} {wheres : List (String × Expr)} {ts us : List Tok}
      (h : Sentence (.level .compare e) ts) (hMore : Wheres wheres us) :
      Wheres ((name, e) :: wheres) (.whereKw :: .ident name :: .equals :: (ts ++ us))

/-- A form up to END. -/
inductive Form : LetForm → List Tok → Prop where
  | intro {form : LetForm} {is os rs ws : List Tok} (hInputs : Inputs form.inputs is)
      (hOutputs : Outputs form.outputs os) (hResults : Sentence (.list form.results) rs)
      (hWheres : Wheres form.wheres ws) (hCount : form.outputs.length = form.results.length) :
      Form form (.letKw :: .lParen :: (is ++ .arrow :: .lParen :: (os ++ .equals :: (rs ++ ws))))

/-! What every sentence has. -/

/-- A parenthesis is open behind the last one of some tokens. -/
def leftOpen : Bool → List Tok → Bool
  | o, [] => o
  | _, .lParen :: ts => leftOpen true ts
  | _, .rParen :: ts => leftOpen false ts
  | o, _ :: ts => leftOpen o ts

theorem leftOpen_append (o : Bool) (ts us : List Tok) :
    leftOpen o (ts ++ us) = leftOpen (leftOpen o ts) us := by
  induction ts generalizing o with
  | nil => rfl
  | cons t ts ih => cases t <;> exact ih _

/-- Tokens with no END among them that leave no parenthesis open. -/
structure Closed (ts : List Tok) : Prop where
  paren : leftOpen false ts = false
  noEnd : .endKw ∉ ts

namespace Closed
variable {ts us : List Tok} {t : Tok}

theorem append (h : Closed ts) (h' : Closed us) : Closed (ts ++ us) where
  paren := by rw [leftOpen_append, h.paren, h'.paren]
  noEnd := by
    rw [List.mem_append, not_or]
    exact ⟨h.noEnd, h'.noEnd⟩

theorem cons (h : Closed ts) (hOpen : t ≠ .lParen) (hEnd : t ≠ .endKw) : Closed (t :: ts) where
  paren := by
    cases t with
    | lParen => exact absurd rfl hOpen
    | _ => exact h.paren
  noEnd := by
    rw [List.mem_cons, not_or]
    exact ⟨hEnd.symm, h.noEnd⟩

theorem nil : Closed [] := ⟨rfl, nofun⟩

/-- A closing parenthesis at the end closes what the parentheses before it leave open. -/
theorem parens (h : .endKw ∉ ts) : Closed (.lParen :: (ts ++ [.rParen])) where
  paren := leftOpen_append true ts [.rParen]
  noEnd := by
    simp only [List.mem_cons, List.mem_append, List.not_mem_nil, or_false, not_or]
    refine ⟨?_, h, ?_⟩
    · intro hOpen
      cases hOpen
    · intro hClose
      cases hClose

end Closed

theorem op_closed {l : Level} {t : Tok} {op : BinOp} (h : l.op t = some op) :
    t ≠ .lParen ∧ t ≠ .endKw := by
  cases l <;> cases t <;> cases h <;> exact ⟨nofun, nofun⟩

theorem Sentence.closed {p : Phrase} {ts : List Tok} (h : Sentence p ts) : Closed ts := by
  induction h with
  | operand h ih => exact ih
  | bin hLeft hOp hRight ihLeft ihRight =>
    exact ihLeft.append (ihRight.cons (op_closed hOp).1 (op_closed hOp).2)
  | base h ih => exact ih
  | power hBase hExponent ihBase ihExponent => exact ihBase.append (ihExponent.cons nofun nofun)
  | neg h ih => exact ih.cons nofun nofun
  | primary h ih => exact ih
  | num => exact Closed.nil.cons nofun nofun
  | var => exact Closed.nil.cons nofun nofun
  | paren h ih => exact .parens ih.noEnd
  | constant => exact (@Closed.parens [] nofun).cons nofun nofun
  | call h ih => exact (Closed.parens ih.noEnd).cons nofun nofun
  | last h ih => exact ih
  | more h hMore ih ihMore => exact ih.append (ihMore.cons nofun nofun)

/-- Names up to a closing parenthesis, behind an opening one. -/
def Listed (ts : List Tok) : Prop := ∃ us, ts = us ++ [.rParen] ∧ .endKw ∉ us

theorem Listed.cons {t : Tok} {ts : List Tok} (h : Listed ts) (hEnd : t ≠ .endKw) : Listed (t :: ts) := by
  obtain ⟨us, rfl, hNone⟩ := h
  refine ⟨t :: us, rfl, ?_⟩
  rw [List.mem_cons, not_or]
  exact ⟨hEnd.symm, hNone⟩

theorem Listed.closed {ts : List Tok} (h : Listed ts) : Closed (.lParen :: ts) := by
  obtain ⟨us, rfl, hNone⟩ := h
  exact .parens hNone

theorem Outputs.listed {names : List String} {ts : List Tok} (h : Outputs names ts) : Listed ts := by
  induction h with
  | close => exact ⟨[], rfl, nofun⟩
  | comma h ih => exact ih.cons nofun
  | name h ih => exact ih.cons nofun

theorem Clause.noEnd {clause : Option DestructureClause} {ts : List Tok} (h : Clause clause ts) :
    .endKw ∉ ts := by
  cases h <;> simp

theorem Inputs.listed {inputs : List LetInput} {ts : List Tok} (h : Inputs inputs ts) : Listed ts := by
  induction h with
  | close => exact ⟨[], rfl, nofun⟩
  | comma h ih => exact ih.cons nofun
  | input hClause h ih =>
    obtain ⟨us, rfl, hNone⟩ := ih
    refine Listed.cons ⟨_ ++ us, (List.append_assoc ..).symm, ?_⟩ nofun
    rw [List.mem_append, not_or]
    exact ⟨hClause.noEnd, hNone⟩

theorem Wheres.closed {wheres : List (String × Expr)} {ts : List Tok} (h : Wheres wheres ts) :
    Closed ts := by
  induction h with
  | none => exact .nil
  | @one name _ _ _ _ h hMore ih =>
    have hBody := (h.closed.append ih).cons (t := .equals) nofun nofun
    exact (hBody.cons (t := .ident name) nofun nofun).cons nofun nofun

theorem Form.closed {form : LetForm} {ts : List Tok} (h : Form form ts) : Closed ts := by
  obtain ⟨hInputs, hOutputs, hResults, hWheres, -⟩ := h
  have hTail := (hResults.closed.append hWheres.closed).cons (t := .equals) nofun nofun
  have hOut := (hOutputs.listed.closed.append hTail).cons (t := .arrow) nofun nofun
  have hAll := (hInputs.listed.closed.append hOut).cons (t := .letKw) nofun nofun
  exact hAll

/-- The tokens in front of the rest are a sentence of some kind. -/
def Spans (P : List Tok → Prop) (toks rest : List (Tok × Nat)) : Prop :=
  ∃ ts, toks = ts ++ rest ∧ P (ts.map Prod.fst)

namespace Spans
variable {P Q R : List Tok → Prop} {a b c : List (Tok × Nat)}

theorem token (t : Tok) (pos : Nat) (rest : List (Tok × Nat)) :
    Spans (· = [t]) ((t, pos) :: rest) rest := ⟨[(t, pos)], rfl, rfl⟩

theorem nothing (rest : List (Tok × Nat)) : Spans (· = []) rest rest := ⟨[], rfl, rfl⟩

theorem mono (h : Spans P a b) (hImp : ∀ ts, P ts → Q ts) : Spans Q a b :=
  let ⟨ts, hSplit, hP⟩ := h
  ⟨ts, hSplit, hImp _ hP⟩

theorem append (h : Spans P a b) (h' : Spans Q b c)
    (hImp : ∀ ts us, P ts → Q us → R (ts ++ us)) : Spans R a c := by
  obtain ⟨ts, rfl, hP⟩ := h
  obtain ⟨us, rfl, hQ⟩ := h'
  refine ⟨ts ++ us, (List.append_assoc ..).symm, ?_⟩
  rw [List.map_append]
  exact hImp _ _ hP hQ

theorem cons {t : Tok} {p : Nat} (h : Spans P a b) (hImp : ∀ ts, P ts → Q (t :: ts)) :
    Spans Q ((t, p) :: a) b :=
  (token t p a).append h fun _ ts hToken hP => hToken ▸ hImp ts hP

theorem both (h : Spans P a b) (h' : Spans Q b c) :
    Spans (fun ts => ∃ us vs, ts = us ++ vs ∧ P us ∧ Q vs) a c :=
  h.append h' fun ts us hP hQ => ⟨ts, us, rfl, hP, hQ⟩

end Spans

section Parser
variable {number : FloatLit → String} {stop : Except LetError Nat}

theorem expect_spans {t : Tok} {toks : List (Tok × Nat)} {r : Read Unit toks.length}
    (h : expect number stop t toks = .ok r) : Spans (· = [t]) toks r.rest := by
  unfold expect at h
  split at h
  · split at h
    · rename_i hTok
      subst hTok
      obtain ⟨-, -, rfl⟩ := ok_of_map h
      exact .token _ _ _
    · cases h
  · cases h

theorem expect_bump {t : Tok} {toks : List (Tok × Nat)} {r : Read Unit toks.length}
    (h : expect number stop t toks = .ok r) : bump stop r.rest = .ok () := by
  unfold expect at h
  split at h
  · split at h
    · obtain ⟨_, hBump, rfl⟩ := ok_of_map h
      exact hBump
    · cases h
  · cases h

theorem takeIdent_spans {expected : String} {toks : List (Tok × Nat)} {r : Read String toks.length}
    (h : takeIdent number stop expected toks = .ok r) :
    Spans (· = [.ident r.value]) toks r.rest := by
  unfold takeIdent at h
  split at h
  · obtain ⟨-, -, rfl⟩ := ok_of_map h
    exact .token _ _ _
  · cases h

theorem outputNames_spans (toks : List (Tok × Nat)) {r : Read (List String) toks.length}
    (h : outputNames number stop toks = .ok r) : Spans (Outputs r.value) toks r.rest := by
  rw [outputNames.eq_def] at h
  split at h
  · obtain ⟨-, -, h⟩ := ok_of_bind h
    obtain ⟨names, hNames, h⟩ := ok_of_bind h
    obtain rfl := Except.ok.inj h
    exact (outputNames_spans _ hNames).cons fun _ => .comma
  · obtain ⟨-, -, h⟩ := ok_of_bind h
    obtain rfl := Except.ok.inj h
    refine (Spans.token _ _ _).mono ?_
    rintro _ rfl
    exact .close
  · obtain ⟨-, -, h⟩ := ok_of_bind h
    obtain ⟨names, hNames, h⟩ := ok_of_bind h
    obtain rfl := Except.ok.inj h
    exact (outputNames_spans _ hNames).cons fun _ => .name
  · cases h
termination_by toks.length

theorem outputList_spans {toks : List (Tok × Nat)} {r : Read (List String) toks.length}
    (h : outputList number stop toks = .ok r) :
    Spans (fun ts => ∃ os, ts = .lParen :: os ∧ Outputs r.value os) toks r.rest := by
  obtain ⟨start, hStart, h⟩ := ok_of_bind h
  obtain ⟨names, hNames, h⟩ := ok_of_bind h
  obtain rfl := Except.ok.inj h
  refine (expect_spans hStart).append (outputNames_spans _ hNames) ?_
  rintro _ os rfl hOutputs
  exact ⟨os, rfl, hOutputs⟩

theorem slotNames_spans (toks : List (Tok × Nat)) {r : Read (List String) (toks.length + 1)}
    (h : slotNames stop toks = .ok r) : Spans (· = r.value.map .ident) toks r.rest := by
  rw [slotNames.eq_def] at h
  split at h
  · obtain ⟨-, -, h⟩ := ok_of_bind h
    obtain ⟨names, hNames, h⟩ := ok_of_bind h
    obtain rfl := Except.ok.inj h
    refine (slotNames_spans _ hNames).cons ?_
    rintro _ rfl
    rfl
  · obtain rfl := Except.ok.inj h
    exact .nothing _
termination_by toks.length

theorem asClause_spans {toks : List (Tok × Nat)} {r : Read (List String) (toks.length + 1)}
    (h : asClause stop toks = .ok r) :
    Spans (fun ts => ∀ cls, Clause (some ⟨cls, r.value⟩) (.colon :: .ident cls :: ts)) toks r.rest := by
  unfold asClause at h
  split at h
  · obtain ⟨-, -, h⟩ := ok_of_bind h
    obtain ⟨names, hNames, h⟩ := ok_of_bind h
    split at h
    · cases h
    · rename_i hSome
      obtain rfl := Except.ok.inj h
      refine (slotNames_spans _ hNames).cons ?_
      rintro _ rfl cls
      exact .slots fun hNil => hSome (List.isEmpty_iff.mpr hNil)
  · obtain rfl := Except.ok.inj h
    refine (Spans.nothing _).mono ?_
    rintro _ rfl cls
    exact .bare

theorem destructureClause_spans {toks : List (Tok × Nat)}
    {r : Read (Option DestructureClause) (toks.length + 1)}
    (h : destructureClause number stop toks = .ok r) : Spans (Clause r.value) toks r.rest := by
  unfold destructureClause at h
  split at h
  · obtain ⟨-, -, h⟩ := ok_of_bind h
    obtain ⟨cls, hCls, h⟩ := ok_of_bind h
    obtain ⟨slots, hSlots, h⟩ := ok_of_bind h
    obtain rfl := Except.ok.inj h
    have hName := (takeIdent_spans hCls).append (asClause_spans hSlots) (R := fun ts =>
      Clause (some ⟨cls.value, slots.value⟩) (.colon :: ts)) (by
        rintro _ ts rfl hClause
        exact hClause cls.value)
    exact hName.cons fun _ hClause => hClause
  · obtain rfl := Except.ok.inj h
    refine (Spans.nothing _).mono ?_
    rintro _ rfl
    exact .none

theorem inputNames_spans (toks : List (Tok × Nat)) {r : Read (List LetInput) toks.length}
    (h : inputNames number stop toks = .ok r) : Spans (Inputs r.value) toks r.rest := by
  rw [inputNames.eq_def] at h
  split at h
  · obtain ⟨-, -, h⟩ := ok_of_bind h
    obtain ⟨inputs, hInputs, h⟩ := ok_of_bind h
    obtain rfl := Except.ok.inj h
    exact (inputNames_spans _ hInputs).cons fun _ => .comma
  · obtain ⟨-, -, h⟩ := ok_of_bind h
    obtain rfl := Except.ok.inj h
    refine (Spans.token _ _ _).mono ?_
    rintro _ rfl
    exact .close
  · obtain ⟨-, -, h⟩ := ok_of_bind h
    obtain ⟨clause, hClause, h⟩ := ok_of_bind h
    obtain ⟨inputs, hInputs, h⟩ := ok_of_bind h
    obtain rfl := Except.ok.inj h
    have hShort := clause.shorter
    have hBoth := (destructureClause_spans hClause).append (inputNames_spans _ hInputs) (R := fun ts =>
      ∀ name, Inputs (⟨name, clause.value⟩ :: inputs.value) (.ident name :: ts))
      fun _ _ hClause hInputs _ => .input hClause hInputs
    exact hBoth.cons fun _ hInputs => hInputs _
  · cases h
termination_by toks.length

theorem inputList_spans {toks : List (Tok × Nat)} {r : Read (List LetInput) toks.length}
    (h : inputList number stop toks = .ok r) :
    Spans (fun ts => ∃ is, ts = .lParen :: is ∧ Inputs r.value is) toks r.rest := by
  obtain ⟨start, hStart, h⟩ := ok_of_bind h
  obtain ⟨inputs, hInputs, h⟩ := ok_of_bind h
  obtain rfl := Except.ok.inj h
  refine (expect_spans hStart).append (inputNames_spans _ hInputs) ?_
  rintro _ is rfl hNames
  exact ⟨is, rfl, hNames⟩

/-- All that the mutually recursive parsers read from some tokens are sentences. -/
structure Sound (number : FloatLit → String) (stop : Except LetError Nat) (toks : List (Tok × Nat)) :
    Prop where
  level : ∀ l r, parseLevel number stop l toks = .ok r →
    Spans (Sentence (.level l r.value)) toks r.rest
  operand : ∀ l r, parseOperand number stop l toks = .ok r →
    Spans (Sentence (.operand l r.value)) toks r.rest
  -- whatever sentence is on the left, the operators that follow make it a longer one
  loop : ∀ l lhs r, parseLoop number stop l lhs toks = .ok r →
    Spans (fun us => ∀ ts, Sentence (.level l lhs) ts → Sentence (.level l r.value) (ts ++ us))
      toks r.rest
  pow : ∀ r, parsePow number stop toks = .ok r → Spans (Sentence (.pow r.value)) toks r.rest
  unary : ∀ r, parseUnary number stop toks = .ok r → Spans (Sentence (.unary r.value)) toks r.rest
  args : ∀ r, parseArgs number stop toks = .ok r →
    Spans (fun ts => ∃ us, ts = us ++ [.rParen] ∧ Sentence (.list r.value) us) toks r.rest

section Step
variable {toks : List (Tok × Nat)}
  (ih : ∀ toks' : List (Tok × Nat), toks'.length < toks.length → Sound number stop toks')
include ih

theorem parseCall_spans {name : String} {pos : Nat} {rest : List (Tok × Nat)}
    (hToks : toks = (.ident name, pos) :: rest) {r : Read Expr (rest.length + 1)}
    (h : parseCall number stop name rest = .ok r) :
    Spans (Sentence (.primary r.value)) toks r.rest := by
  subst hToks
  rw [parseCall.eq_def] at h
  split at h
  · obtain ⟨-, -, h⟩ := ok_of_bind h
    obtain rfl := Except.ok.inj h
    refine Spans.cons (P := (· = [.lParen, .rParen])) ((Spans.token _ _ _).cons ?_) ?_
    · rintro _ rfl
      rfl
    · rintro _ rfl
      exact .constant
  · obtain ⟨-, -, h⟩ := ok_of_bind h
    obtain ⟨args, hArgs, h⟩ := ok_of_bind h
    obtain rfl := Except.ok.inj h
    have hList := (ih _ (by simp only [List.length_cons]; omega)).args _ hArgs
    refine Spans.cons (P := fun ts => ∃ us, ts = .lParen :: (us ++ [.rParen]) ∧
      Sentence (.list args.value) us) (hList.cons ?_) ?_
    · rintro _ ⟨us, rfl, hSentence⟩
      exact ⟨us, rfl, hSentence⟩
    · rintro _ ⟨us, rfl, hSentence⟩
      exact .call hSentence
  · obtain rfl := Except.ok.inj h
    refine (Spans.token _ _ _).mono ?_
    rintro _ rfl
    exact .var

theorem parsePrimary_spans {r : Read Expr toks.length} (h : parsePrimary number stop toks = .ok r) :
    Spans (Sentence (.primary r.value)) toks r.rest := by
  rw [parsePrimary.eq_def] at h
  split at h
  · obtain ⟨-, -, h⟩ := ok_of_bind h
    obtain rfl := Except.ok.inj h
    refine (Spans.token _ _ _).mono ?_
    rintro _ rfl
    exact .num
  · obtain ⟨-, -, h⟩ := ok_of_bind h
    exact parseCall_spans ih rfl h
  · obtain ⟨-, -, h⟩ := ok_of_bind h
    obtain ⟨e, hExpr, h⟩ := ok_of_bind h
    obtain ⟨close, hClose, h⟩ := ok_of_bind h
    obtain rfl := Except.ok.inj h
    have hClosed := ((ih _ (Nat.lt_succ_self _)).level _ _ hExpr).append (expect_spans hClose)
      (R := fun ts => Sentence (.primary e.value) (.lParen :: ts)) (by
        rintro ts _ hSentence rfl
        exact .paren hSentence)
    exact hClosed.cons fun _ hSentence => hSentence
  · obtain ⟨-, -, h⟩ := ok_of_bind h
    cases h
  · cases h

theorem parseUnary_spans {r : Read Expr toks.length} (h : parseUnary number stop toks = .ok r) :
    Spans (Sentence (.unary r.value)) toks r.rest := by
  rw [parseUnary.eq_def] at h
  split at h
  · obtain ⟨-, -, h⟩ := ok_of_bind h
    obtain ⟨e, hExpr, h⟩ := ok_of_bind h
    obtain rfl := Except.ok.inj h
    exact ((ih _ (Nat.lt_succ_self _)).unary _ hExpr).cons fun _ => .neg
  · exact (parsePrimary_spans ih h).mono fun _ => .primary

theorem parsePow_spans {r : Read Expr toks.length} (h : parsePow number stop toks = .ok r) :
    Spans (Sentence (.pow r.value)) toks r.rest := by
  rw [parsePow.eq_def] at h
  obtain ⟨lhs, hLhs, h⟩ := ok_of_bind h
  have hShort := lhs.shorter
  have hBase := parseUnary_spans ih hLhs
  split at h
  · rename_i pos rest hRest
    obtain ⟨-, -, h⟩ := ok_of_bind h
    obtain ⟨rhs, hRhs, h⟩ := ok_of_bind h
    obtain rfl := Except.ok.inj h
    rw [hRest] at hBase
    rw [hRest] at hShort
    have hExponent := (ih rest (Nat.lt_of_succ_lt hShort)).pow _ hRhs
    have hPower := hExponent.cons (t := .starStar) (p := pos) (Q := fun us =>
      ∀ ts, Sentence (.unary lhs.value) ts → Sentence (.pow (.bin .pow lhs.value rhs.value)) (ts ++ us))
      fun _ hExponent _ hBase => .power hBase hExponent
    exact hBase.append hPower fun ts us hBase hPower => hPower ts hBase
  · obtain rfl := Except.ok.inj h
    exact hBase.mono fun _ => .base

theorem parseLoop_spans {l : Level} {lhs : Expr} {r : Read Expr (toks.length + 1)}
    (h : parseLoop number stop l lhs toks = .ok r) :
    Spans (fun us => ∀ ts, Sentence (.level l lhs) ts → Sentence (.level l r.value) (ts ++ us))
      toks r.rest := by
  have hNothing : Spans (fun us => ∀ ts, Sentence (.level l lhs) ts →
      Sentence (.level l lhs) (ts ++ us)) toks toks := by
    refine (Spans.nothing _).mono ?_
    rintro _ rfl ts hLeft
    rwa [List.append_nil]
  rw [parseLoop.eq_def] at h
  split at h
  · split at h
    · rename_i op hOp
      obtain ⟨-, -, h⟩ := ok_of_bind h
      obtain ⟨rhs, hRhs, h⟩ := ok_of_bind h
      obtain ⟨e, hLoop, h⟩ := ok_of_bind h
      obtain rfl := Except.ok.inj h
      have hRight := (ih _ (Nat.lt_succ_self _)).operand _ _ hRhs
      have hMore := (ih _ (Nat.lt_succ_of_lt rhs.shorter)).loop _ _ _ hLoop
      have hBoth := hRight.append hMore (R := fun us => ∀ ts, Sentence (.level l lhs) ts →
        Sentence (.level l e.value) (ts ++ _ :: us)) (by
        intro us vs hRight hMore ts hLeft
        have hStep := hMore _ (.bin hLeft hOp hRight)
        rwa [List.append_assoc, List.cons_append] at hStep)
      exact hBoth.cons fun _ hSentence => hSentence
    · obtain rfl := Except.ok.inj h
      exact hNothing
  · obtain rfl := Except.ok.inj h
    exact hNothing

/-- The operators of a level, over operands that are read right. -/
theorem parseLevel_spans {l : Level}
    (hOperand : ∀ r, parseOperand number stop l toks = .ok r →
      Spans (Sentence (.operand l r.value)) toks r.rest)
    {r : Read Expr toks.length} (h : parseLevel number stop l toks = .ok r) :
    Spans (Sentence (.level l r.value)) toks r.rest := by
  rw [parseLevel.eq_def] at h
  obtain ⟨lhs, hLhs, h⟩ := ok_of_bind h
  obtain ⟨e, hLoop, h⟩ := ok_of_bind h
  obtain rfl := Except.ok.inj h
  refine (hOperand _ hLhs).append ((ih _ lhs.shorter).loop _ _ _ hLoop) ?_
  intro ts us hLeft hMore
  exact hMore ts (.operand hLeft)

theorem parseOperand_spans (l : Level) {r : Read Expr toks.length}
    (h : parseOperand number stop l toks = .ok r) :
    Spans (Sentence (.operand l r.value)) toks r.rest := by
  have hMul : ∀ r, parseOperand number stop .mul toks = .ok r →
      Spans (Sentence (.operand .mul r.value)) toks r.rest := by
    intro r h
    rw [parseOperand.eq_def] at h
    exact parsePow_spans ih h
  have hAdd : ∀ r, parseOperand number stop .add toks = .ok r →
      Spans (Sentence (.operand .add r.value)) toks r.rest := by
    intro r h
    rw [parseOperand.eq_def] at h
    exact parseLevel_spans ih hMul h
  cases l with
  | compare =>
    rw [parseOperand.eq_def] at h
    exact parseLevel_spans ih hAdd h
  | add => exact hAdd r h
  | mul => exact hMul r h

theorem parseArgs_spans {r : Read (List Expr) toks.length} (h : parseArgs number stop toks = .ok r) :
    Spans (fun ts => ∃ us, ts = us ++ [.rParen] ∧ Sentence (.list r.value) us) toks r.rest := by
  rw [parseArgs.eq_def] at h
  obtain ⟨e, hExpr, h⟩ := ok_of_bind h
  have hShort := e.shorter
  have hFirst := parseLevel_spans ih (fun _ => parseOperand_spans ih _) hExpr
  split at h
  · rename_i pos rest hRest
    obtain ⟨-, -, h⟩ := ok_of_bind h
    obtain ⟨args, hArgs, h⟩ := ok_of_bind h
    obtain rfl := Except.ok.inj h
    rw [hRest] at hFirst
    rw [hRest] at hShort
    have hMore := ((ih rest (Nat.lt_of_succ_lt hShort)).args _ hArgs).cons (t := .comma) (p := pos)
      (Q := fun ts => ∃ us, ts = .comma :: (us ++ [.rParen]) ∧ Sentence (.list args.value) us) (by
        rintro _ ⟨us, rfl, hSentence⟩
        exact ⟨us, rfl, hSentence⟩)
    refine hFirst.append hMore ?_
    rintro ts _ hFirst ⟨us, rfl, hMore⟩
    exact ⟨ts ++ .comma :: us, by simp, .more hFirst hMore⟩
  · obtain ⟨close, hClose, h⟩ := ok_of_bind h
    obtain rfl := Except.ok.inj h
    refine hFirst.append (expect_spans hClose) ?_
    rintro ts _ hFirst rfl
    exact ⟨ts, rfl, .last hFirst⟩

theorem sound_step : Sound number stop toks where
  level _ _ := parseLevel_spans ih fun _ => parseOperand_spans ih _
  operand l _ := parseOperand_spans ih l
  loop _ _ _ := parseLoop_spans ih
  pow _ := parsePow_spans ih
  unary _ := parseUnary_spans ih
  args _ := parseArgs_spans ih

end Step

theorem sound (toks : List (Tok × Nat)) : Sound number stop toks :=
  sound_step fun toks' _hShort => sound toks'
termination_by toks.length

theorem parseExpr_spans {toks : List (Tok × Nat)} {r : Read Expr toks.length}
    (h : parseExpr number stop toks = .ok r) :
    Spans (Sentence (.level .compare r.value)) toks r.rest := (sound toks).level _ _ h

theorem parseResults_spans (toks : List (Tok × Nat)) {r : Read (List Expr) toks.length}
    (h : parseResults number stop toks = .ok r) : Spans (Sentence (.list r.value)) toks r.rest := by
  rw [parseResults.eq_def] at h
  obtain ⟨e, hExpr, h⟩ := ok_of_bind h
  have hShort := e.shorter
  have hFirst := parseExpr_spans hExpr
  split at h
  · rename_i pos rest hRest
    obtain ⟨-, -, h⟩ := ok_of_bind h
    obtain ⟨results, hResults, h⟩ := ok_of_bind h
    obtain rfl := Except.ok.inj h
    rw [hRest] at hFirst
    have hLess : rest.length < toks.length := by
      rw [hRest] at hShort
      exact Nat.lt_of_succ_lt hShort
    have hMore := (parseResults_spans rest hResults).cons (t := .comma) (p := pos) (Q := fun us =>
      ∀ ts, Sentence (.level .compare e.value) ts →
        Sentence (.list (e.value :: results.value)) (ts ++ us)) fun _ hMore _ hFirst => .more hFirst hMore
    exact hFirst.append hMore fun ts us hFirst hMore => hMore ts hFirst
  · obtain rfl := Except.ok.inj h
    exact hFirst.mono fun _ => .last
termination_by toks.length

theorem parseWheres_spans (toks : List (Tok × Nat)) {r : Read (List (String × Expr)) (toks.length + 1)}
    (h : parseWheres number stop toks = .ok r) : Spans (Wheres r.value) toks r.rest := by
  rw [parseWheres.eq_def] at h
  split at h
  · obtain ⟨-, -, h⟩ := ok_of_bind h
    obtain ⟨name, hName, h⟩ := ok_of_bind h
    obtain ⟨equals, hEquals, h⟩ := ok_of_bind h
    obtain ⟨e, hExpr, h⟩ := ok_of_bind h
    obtain ⟨wheres, hWheres, h⟩ := ok_of_bind h
    obtain rfl := Except.ok.inj h
    have hShort := Nat.lt_succ_of_lt (Nat.lt_trans e.shorter (Nat.lt_trans equals.shorter name.shorter))
    have hHead := (takeIdent_spans hName).append (expect_spans hEquals)
      (R := (· = [.ident name.value, .equals])) (by
        rintro _ _ rfl rfl
        rfl)
    have hBody := (parseExpr_spans hExpr).append (parseWheres_spans e.rest hWheres) (R := fun ts =>
      Wheres ((name.value, e.value) :: wheres.value) (.whereKw :: .ident name.value :: .equals :: ts))
      fun _ _ => .one
    have hAll := hHead.append hBody (R := fun ts =>
      Wheres ((name.value, e.value) :: wheres.value) (.whereKw :: ts)) (by
        rintro _ ts rfl hWhere
        exact hWhere)
    exact hAll.cons fun _ hWhere => hWhere
  · obtain rfl := Except.ok.inj h
    refine (Spans.nothing _).mono ?_
    rintro _ rfl
    exact .none
termination_by toks.length
decreasing_by simp_all

/-- The forms that the parser accepts are sentences, with END behind them. -/
theorem parseForm_spans {toks : List (Tok × Nat)} {r : LetForm × List (Tok × Nat)}
    (h : parseForm number stop toks = .ok r) :
    Spans (fun ts => ∃ us, ts = us ++ [.endKw] ∧ Form r.1 us) toks r.2 := by
  obtain ⟨kw, hKw, h⟩ := ok_of_bind h
  obtain ⟨inputs, hInputs, h⟩ := ok_of_bind h
  obtain ⟨arrow, hArrow, h⟩ := ok_of_bind h
  obtain ⟨outputs, hOutputs, h⟩ := ok_of_bind h
  obtain ⟨equals, hEquals, h⟩ := ok_of_bind h
  obtain ⟨results, hResults, h⟩ := ok_of_bind h
  obtain ⟨wheres, hWheres, h⟩ := ok_of_bind h
  obtain ⟨done, hDone, h⟩ := ok_of_bind h
  split at h
  · rename_i hCount
    obtain rfl := Except.ok.inj h
    have hTail := (parseResults_spans _ hResults).both
      ((parseWheres_spans _ hWheres).both (expect_spans hDone))
    have hAll := (expect_spans hKw).both ((inputList_spans hInputs).both ((expect_spans hArrow).both
      ((outputList_spans hOutputs).both ((expect_spans hEquals).both hTail))))
    refine hAll.mono ?_
    rintro _ ⟨_, _, rfl, rfl, _, _, rfl, ⟨is, rfl, hIs⟩, _, _, rfl, rfl, _, _, rfl, ⟨os, rfl, hOs⟩, _, _,
      rfl, rfl, rs, _, rfl, hRs, ws, _, rfl, hWs, rfl⟩
    exact ⟨_, by simp, .intro hIs hOs hRs hWs hCount⟩
  · cases h

/-- The last token is taken only where the text behind it is read too. -/
theorem parseForm_stop {toks : List (Tok × Nat)} {form : LetForm}
    (h : parseForm number stop toks = .ok (form, [])) : ∃ end_, stop = .ok end_ := by
  obtain ⟨kw, -, h⟩ := ok_of_bind h
  obtain ⟨inputs, -, h⟩ := ok_of_bind h
  obtain ⟨arrow, -, h⟩ := ok_of_bind h
  obtain ⟨outputs, -, h⟩ := ok_of_bind h
  obtain ⟨equals, -, h⟩ := ok_of_bind h
  obtain ⟨results, -, h⟩ := ok_of_bind h
  obtain ⟨wheres, -, h⟩ := ok_of_bind h
  obtain ⟨done, hDone, h⟩ := ok_of_bind h
  split at h
  · have hRest : done.rest = [] := congrArg Prod.snd (Except.ok.inj h)
    have hBump := expect_bump hDone
    rw [hRest] at hBump
    obtain ⟨end_, hStop, -⟩ := ok_of_map hBump
    exact ⟨end_, hStop⟩
  · cases h

/-- The tokens of an accepted text are a sentence, with END as the last. -/
theorem parse_form {source : String} {form : LetForm} (h : parse number source = .ok form) :
    ∃ us end_, (tokens ⟨source.toList, 0⟩).toks.map Prod.fst = us ++ [.endKw] ∧
      (tokens ⟨source.toList, 0⟩).stop = .ok end_ ∧ Form form us := by
  unfold parse at h
  obtain ⟨-, -, h⟩ := ok_of_bind h
  obtain ⟨⟨form', rest⟩, hForm', h⟩ := ok_of_bind h
  dsimp only at h
  split at h
  · rename_i hRest
    obtain rfl := Except.ok.inj h
    obtain ⟨ts, hToks, us, hTs, hForm⟩ := parseForm_spans hForm'
    subst hRest
    obtain ⟨end_, hStop⟩ := parseForm_stop hForm'
    rw [List.append_nil] at hToks
    exact ⟨us, end_, hToks ▸ hTs, hStop, hForm⟩
  · cases h

end Parser
end FactorForth.Correctness.LetForms
