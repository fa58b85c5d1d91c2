import FactorForth.Correctness.Session
import FactorForth.Semantics.Scoping

/-! Hygiene of the emitted definitions: the names that are in scope at each place of a body, and the
words the construct at that place is written with. -/

namespace FactorForth.Correctness
open FactorForth.Library FactorForth.Compiler FactorForth.Semantics

/-! The bindings of a body. -/

/-- The fresh name of a discard, by the process-wide number of the last one. -/
def discardName (n : Nat) : String := "_d" ++ toString (n + 1)

/-- The bindings of locals, as they are written. -/
def written : Nat → List LocalDecl → List (String × Binder)
  | _, [] => []
  | n, l :: ls =>
    match bindingName l.name with
    | some text => (text, .local_ (lower l.name)) :: written n ls
    | none => (discardName n, .discard) :: written (n + 1) ls

def discards (ls : List LocalDecl) : Nat := ls.countP fun l => (bindingName l.name).isNone

mutual
/-- The locals that an expression binds, in the order in which the bindings are written. -/
def exprBinders : Expr → List LocalDecl
  | .locals names _ => names.reverse
  | .ifElse thenBody none _ => bodyBinders thenBody
  | .ifElse thenBody (some elseBody) _ => bodyBinders elseBody ++ bodyBinders thenBody
  | .beginUntil body _ => bodyBinders body
  | .beginAgain body _ => bodyBinders body
  | .doLoop _ body _ _ => bodyBinders body
  | .beginWhileRepeat pred body _ => bodyBinders pred ++ bodyBinders body
  | .caseOf arms none _ => armsBinders arms
  | .caseOf arms (some default) _ => armsBinders arms ++ bodyBinders default
  | _ => []

def armsBinders : List (CaseArm Expr) → List LocalDecl
  | [] => []
  | ⟨matchExpr, body, _⟩ :: arms => bodyBinders matchExpr ++ (bodyBinders body ++ armsBinders arms)

def bodyBinders : List Expr → List LocalDecl
  | [] => []
  | e :: es => exprBinders e ++ bodyBinders es
end

mutual
/-- The scope behind an expression: what a quotation binds is out of scope behind it, but the tests
of a CASE stand in the quotation of the CASE itself. -/
def exprScope (σ : Bindings) (n : Nat) : Expr → Bindings
  | .locals names _ => σ.enterAll (written n names.reverse)
  | .caseOf arms none _ => armsScope σ n arms fun σ _ => σ
  | .caseOf arms (some default) _ => armsScope σ n arms fun σ n => bodyScope σ n default
  | _ => σ

def armsScope (σ : Bindings) (n : Nat) : List (CaseArm Expr) → (Bindings → Nat → Bindings) → Bindings
  | [], base => base σ n
  | ⟨matchExpr, _, _⟩ :: _, _ => bodyScope σ n matchExpr

def bodyScope (σ : Bindings) (n : Nat) : List Expr → Bindings
  | [] => σ
  | e :: es => bodyScope (exprScope σ n e) (n + discards (exprBinders e)) es
end

/-! The words that a body is written with, against the names in scope there. -/

section Clear
variable (floatText : FloatLit → String) (letNames : LetLang.LetForm → List String) (r : Sema)

def literalWords : Literal → List String
  | .int value _ => [toString value]
  | .float value _ => [floatText value]
  | .str _ .dotQuote _ => ["\"", "forth.runtime:print-string"]
  | .str _ .sQuote _ => ["\"", "forth.runtime:s-quote-runtime"]
  | .str _ .sDollarQuote _ => ["\""]
  | .str _ .cQuote _ => ["\""]

/-- A reference to a local finds that local, and any other reference its word. -/
def referenceClear (σ : Bindings) (name : String) (span : Span) : Bool :=
  match r.wordTargets.lookup span with
  | some (.local_ n) => σ.lookup n == some (.local_ n)
  | some t => σ.free [t.toFactorToken]
  | none => σ.free [name]

/-- A binding is announced by `:>`, which an earlier binding may have taken. -/
def bindingsClear : Bindings → List (String × Binder) → Bool
  | _, [] => true
  | σ, b :: bs => σ.free [":>"] && bindingsClear (σ.enter b) bs

/-- A quotation, with the scope at its end and the words in front of its closing bracket. -/
def quotClear (σ inner : Bindings) (body : Bool) (words : List String) : Bool :=
  σ.free ["["] && (body && inner.free words) && inner.free ["]"]

mutual
def exprClear (σ : Bindings) (n : Nat) : Expr → Bool
  | .lit l => σ.free (literalWords floatText l)
  | .wordRef name span => referenceClear r σ name span
  | .ifElse thenBody none _ =>
    σ.free ["math:zero?"] &&
      quotClear σ (bodyScope σ n thenBody) (bodyClear σ n thenBody) [] &&
      σ.free ["kernel:unless"]
  | .ifElse thenBody (some elseBody) _ =>
    let m := n + discards (bodyBinders elseBody)
    σ.free ["math:zero?"] &&
      quotClear σ (bodyScope σ n elseBody) (bodyClear σ n elseBody) [] &&
      quotClear σ (bodyScope σ m thenBody) (bodyClear σ m thenBody) [] &&
      σ.free ["kernel:if"]
  | .beginUntil body _ =>
    quotClear σ (bodyScope σ n body) (bodyClear σ n body) ["math:zero?"] && σ.free ["kernel:loop"]
  | .beginWhileRepeat pred body _ =>
    let inner := bodyScope σ n pred
    let m := n + discards (bodyBinders pred)
    quotClear σ inner (bodyClear σ n pred && inner.free ["math:zero?", "[", "f", "]"] &&
        quotClear inner (bodyScope inner m body) (bodyClear inner m body) ["t"]) ["kernel:if"] &&
      σ.free ["kernel:loop"]
  | .beginAgain body _ =>
    quotClear σ (bodyScope σ n body) (bodyClear σ n body) ["t"] && σ.free ["kernel:loop"]
  | .doLoop isQdo body loopKind _ =>
    quotClear σ (bodyScope σ n body) (bodyClear σ n body) (if loopKind = .plus1 then ["1"] else []) &&
      σ.free [if isQdo then "forth.runtime:?do-loop" else "forth.runtime:do-loop"]
  | .caseOf arms none _ =>
    armsClear σ n arms (fun σ _ => σ.free ["kernel:drop"]) fun σ _ => σ
  | .caseOf arms (some default) _ =>
    armsClear σ n arms
      (fun σ n => bodyClear σ n default && (bodyScope σ n default).free ["kernel:drop"])
      fun σ n => bodyScope σ n default
  | .tick name span => quotClear σ σ (referenceClear r σ name span) []
  | .toValue name _ => σ.free [valueStorageName (lower name), "set-global"]
  | .see _ _ => σ.free ["\"", "forth.runtime:print-string"]
  | .letForm form _ => σ.free (letNames form)
  | .locals names _ => bindingsClear σ (written n names.reverse)

/-- The chain of a CASE; `base` is what the no-match path asks for, and `behind` the scope behind it. -/
def armsClear (σ : Bindings) (n : Nat) :
    List (CaseArm Expr) → (Bindings → Nat → Bool) → (Bindings → Nat → Bindings) → Bool
  | [], base, _ => base σ n
  | ⟨matchExpr, body, _⟩ :: arms, base, behind =>
    let inner := bodyScope σ n matchExpr
    let m := n + discards (bodyBinders matchExpr)
    let k := m + discards (bodyBinders body)
    σ.free ["dup"] && bodyClear σ n matchExpr && inner.free ["="] &&
      quotClear inner (bodyScope inner m body) (inner.free ["drop"] && bodyClear inner m body) [] &&
      quotClear inner (armsScope inner k arms behind) (armsClear inner k arms base behind) [] &&
      inner.free ["kernel:if"]

/-- No word that the body is written with is spelt like a binding in scope where it stands, and every
reference to a local finds that local. -/
def bodyClear (σ : Bindings) (n : Nat) : List Expr → Bool
  | [] => true
  | [e] => exprClear σ n e
  | e :: next :: rest =>
    match tryEmitNarrowSink r.escape e next with
    | some access => access.all (readsAs floatText letNames σ) && bodyClear σ n rest
    | none => exprClear σ n e &&
        bodyClear (exprScope σ n e) (n + discards (exprBinders e)) (next :: rest)
end

/-- A body up to the `;` of its definition, inside `with-return` when an EXIT is left in it. -/
def entryClear (σ : Bindings) (n : Nat) (body : List Expr) : Bool :=
  if bodyUsesExit r.wordTargets body then
    quotClear σ (bodyScope σ n body) (bodyClear floatText letNames r σ n body) [] &&
      σ.free ["continuations:with-return", ";"]
  else bodyClear floatText letNames r σ n body && (bodyScope σ n body).free [";"]

end Clear

/-! A code with the bindings it makes. -/

section Reading
variable (floatText : FloatLit → String) (letNames : LetLang.LetForm → List String)

/-- A code makes the bindings of these locals, is hygienic when `clear` holds and leaves the scope
`behind`. -/
structure Reads (code : List Tok) (ls : List LocalDecl) (clear : Bindings → Nat → Bool)
    (behind : Bindings → Nat → Bindings) : Prop where
  binds : binds code = ls.length
  hygienic : ∀ σ n rest, codeHygienic floatText letNames σ (written n ls ++ rest) code = clear σ n
  behind : ∀ σ n rest, scopeAfter σ (written n ls ++ rest) code = behind σ n

variable {floatText letNames}

theorem length_written (n : Nat) (ls : List LocalDecl) : (written n ls).length = ls.length := by
  induction ls generalizing n with
  | nil => rfl
  | cons l ls ih =>
    rw [written]
    cases bindingName l.name with
    | none => rw [List.length_cons, ih, List.length_cons]
    | some text => rw [List.length_cons, ih, List.length_cons]

theorem written_append (n : Nat) (ls ms : List LocalDecl) :
    written n (ls ++ ms) = written n ls ++ written (n + discards ls) ms := by
  induction ls generalizing n with
  | nil => rfl
  | cons l ls ih =>
    rw [List.cons_append, written, written]
    cases hName : bindingName l.name with
    | none =>
      have hCount : discards (l :: ls) = discards ls + 1 := by simp [discards, hName]
      rw [hCount, Nat.add_comm (discards ls) 1, ← Nat.add_assoc]
      show _ :: written (n + 1) (ls ++ ms) = _ :: (written (n + 1) ls ++ _)
      rw [ih]
    | some text =>
      have hCount : discards (l :: ls) = discards ls := by simp [discards, hName]
      rw [hCount]
      show _ :: written n (ls ++ ms) = _ :: (written n ls ++ _)
      rw [ih]

theorem Reads.nil : Reads floatText letNames [] [] (fun _ _ => true) fun σ _ => σ where
  binds := rfl
  hygienic _ _ _ := rfl
  behind _ _ _ := rfl

variable {code code' : List Tok} {ls ls' : List LocalDecl}
variable {clear clear' : Bindings → Nat → Bool} {behind behind' : Bindings → Nat → Bindings}

theorem Reads.append (h : Reads floatText letNames code ls clear behind)
    (h' : Reads floatText letNames code' ls' clear' behind') :
    Reads floatText letNames (code ++ code') (ls ++ ls')
      (fun σ n => clear σ n && clear' (behind σ n) (n + discards ls))
      fun σ n => behind' (behind σ n) (n + discards ls) where
  binds := by rw [binds_append, h.binds, h'.binds, List.length_append]
  hygienic σ n rest := by
    have hDrop : (written n ls ++ (written (n + discards ls) ls' ++ rest)).drop (Semantics.binds code) =
        written (n + discards ls) ls' ++ rest := by
      rw [h.binds, ← length_written n ls, List.drop_left]
    rw [codeHygienic_append, written_append, List.append_assoc, h.hygienic, h.behind, hDrop,
      h'.hygienic]
  behind σ n rest := by
    have hDrop : (written n ls ++ (written (n + discards ls) ls' ++ rest)).drop (Semantics.binds code) =
        written (n + discards ls) ls' ++ rest := by
      rw [h.binds, ← length_written n ls, List.drop_left]
    rw [scopeAfter_append, written_append, List.append_assoc, h.behind, hDrop, h'.behind]

theorem Reads.quot (h : Reads floatText letNames code ls clear behind) :
    Reads floatText letNames [.quot code] ls
      (fun σ n => σ.free ["["] && clear σ n && (behind σ n).free ["]"]) fun σ _ => σ where
  binds := by rw [Semantics.binds, tokBinds, Semantics.binds, h.binds, Nat.add_zero]
  hygienic σ n rest := by
    rw [codeHygienic, codeHygienic, Bool.and_true, tokHygienic, h.hygienic, h.behind]
  behind _ _ _ := rfl

/-- A code without bindings. -/
theorem Reads.words (code : List Tok)
    (hFlat : ∀ t ∈ code, tokBinds t = 0 ∧ ∀ σ todo, scopeBehind σ todo t = σ ∧
      tokHygienic floatText letNames σ todo t = readsAs floatText letNames σ t) :
    Reads floatText letNames code [] (fun σ _ => code.all (readsAs floatText letNames σ))
      fun σ _ => σ := by
  have hAll : ∀ σ todo, Semantics.binds code = 0 ∧ scopeAfter σ todo code = σ ∧
      codeHygienic floatText letNames σ todo code = code.all (readsAs floatText letNames σ) := by
    induction code with
    | nil => exact fun _ _ => ⟨rfl, rfl, rfl⟩
    | cons t ts ih =>
      intro σ todo
      obtain ⟨hBinds, hTok⟩ := hFlat t List.mem_cons_self
      obtain ⟨hScope, hRead⟩ := hTok σ todo
      obtain ⟨hTail, hAfter, hCode⟩ :=
        ih (fun t ht => hFlat t (List.mem_cons_of_mem _ ht)) σ (todo.drop 0)
      refine ⟨?_, ?_, ?_⟩
      · rw [Semantics.binds, hBinds, hTail]
      · rw [scopeAfter, hBinds, hScope, hAfter]
      · rw [codeHygienic, hRead, hBinds, hScope, hCode, List.all_cons]
  exact ⟨(hAll [] []).1, fun σ n rest => (hAll σ _).2.2, fun σ n rest => (hAll σ _).2.1⟩

theorem Reads.of_eq (h : Reads floatText letNames code ls clear behind)
    (hLs : ls = ls') (hClear : ∀ σ n, clear σ n = clear' σ n)
    (hBehind : ∀ σ n, behind σ n = behind' σ n) :
    Reads floatText letNames code ls' clear' behind' := by
  obtain rfl := hLs
  obtain rfl : clear = clear' := funext fun σ => funext fun n => hClear σ n
  obtain rfl : behind = behind' := funext fun σ => funext fun n => hBehind σ n
  exact h

theorem Reads.word {t : Tok} (hBinds : tokBinds t = 0)
    (hScope : ∀ σ todo, scopeBehind σ todo t = σ)
    (hRead : ∀ σ todo, tokHygienic floatText letNames σ todo t = readsAs floatText letNames σ t) :
    Reads floatText letNames [t] [] (fun σ _ => readsAs floatText letNames σ t) fun σ _ => σ := by
  have hWords := Reads.words [t] (fun t' ht => by
    obtain rfl := List.mem_singleton.mp ht
    exact ⟨hBinds, fun σ todo => ⟨hScope σ todo, hRead σ todo⟩⟩)
  exact hWords.of_eq rfl (fun σ n => by rw [List.all_cons, List.all_nil, Bool.and_true])
    fun _ _ => rfl

theorem Reads.prim (p : Prim) : Reads floatText letNames [.prim p] []
    (fun σ _ => σ.free [p.text]) fun σ _ => σ :=
  Reads.word rfl (fun _ _ => rfl) fun _ _ => rfl

theorem reads_bindings (ls : List LocalDecl) :
    Reads floatText letNames (ls.map fun l => .bind (bindingName l.name)) ls
      (fun σ n => bindingsClear σ (written n ls)) fun σ n => σ.enterAll (written n ls) := by
  induction ls with
  | nil => exact Reads.nil
  | cons l ls ih =>
    have hText : ∀ n, ∃ b, written n (l :: ls) = b :: written (n + discards [l]) ls ∧
        (bindingName l.name).getD b.1 = b.1 := by
      intro n
      rw [written]
      cases hName : bindingName l.name with
      | none => exact ⟨(discardName n, .discard), by simp [discards, hName], rfl⟩
      | some text => exact ⟨(text, .local_ (lower l.name)), by simp [discards, hName], rfl⟩
    have hScope : ∀ {σ : Bindings} {b : String × Binder} {bs}, (bindingName l.name).getD b.1 = b.1 →
        scopeBehind σ (b :: bs) (.bind (bindingName l.name)) = σ.enter b := by
      intro σ b bs hGet
      show σ.enter ((bindingName l.name).getD b.1, b.2) = _
      rw [hGet]
    constructor
    · rw [List.map_cons, Semantics.binds, tokBinds, ih.binds, List.length_cons, Nat.add_comm]
    · intro σ n rest
      obtain ⟨b, hb, hGet⟩ := hText n
      rw [hb, List.map_cons, codeHygienic, bindingsClear, List.cons_append, hScope hGet]
      exact congrArg _ (ih.hygienic _ _ rest)
    · intro σ n rest
      obtain ⟨b, hb, hGet⟩ := hText n
      rw [hb, List.map_cons, scopeAfter, List.cons_append, hScope hGet]
      exact ih.behind _ _ rest

/-! What the emitter writes. -/

variable {r : Sema}

theorem reads_reference (name : String) (span : Span) :
    Reads floatText letNames [emitWord r name span] []
      (fun σ _ => referenceClear r σ name span) fun σ _ => σ := by
  unfold emitWord referenceClear
  cases hTarget : r.wordTargets.lookup span with
  | none => exact Reads.word rfl (fun _ _ => rfl) fun _ _ => rfl
  | some t => cases t <;> exact Reads.word rfl (fun _ _ => rfl) fun _ _ => rfl

theorem reads_literal (l : Literal) : Reads floatText letNames (emitLiteral l) []
    (fun σ _ => σ.free (literalWords floatText l)) fun σ _ => σ := by
  have hTwo : ∀ (s : String) (w : String), Reads floatText letNames [.str s, runtimeWord w] []
      (fun σ _ => σ.free ["\"", "forth.runtime:" ++ w]) fun σ _ => σ := by
    intro s w
    have hWords := @Reads.words floatText letNames [.str s, runtimeWord w] (by simp [tokBinds, scopeBehind, tokHygienic, runtimeWord])
    refine hWords.of_eq rfl (fun σ n => ?_) fun _ _ => rfl
    simp [readsAs, tokNames, runtimeWord, Bindings.free, Target.toFactorToken]
  cases l with
  | int value span => exact Reads.word rfl (fun _ _ => rfl) fun _ _ => rfl
  | float value span => exact Reads.word rfl (fun _ _ => rfl) fun _ _ => rfl
  | str value kind span =>
    cases kind with
    | dotQuote => exact hTwo value "print-string"
    | sQuote => exact hTwo value "s-quote-runtime"
    | sDollarQuote => exact Reads.word rfl (fun _ _ => rfl) fun _ _ => rfl
    | cQuote => exact Reads.word rfl (fun _ _ => rfl) fun _ _ => rfl

theorem discards_nil : discards [] = 0 := rfl

theorem free_nil (σ : Bindings) : σ.free [] = true := rfl

theorem free_cons (σ : Bindings) (w : String) (ws : List String) :
    σ.free (w :: ws) = (σ.free [w] && σ.free ws) := by
  simp [Bindings.free]

theorem reads_access {e next : Expr} {access : List Tok}
    (h : tryEmitNarrowSink r.escape e next = some access) :
    Reads floatText letNames access [] (fun σ _ => access.all (readsAs floatText letNames σ))
      (fun σ _ => σ) ∧ exprBinders e = [] ∧ exprBinders next = [] ∧
      (∀ σ n, exprScope σ n e = σ) ∧ ∀ σ n, exprScope σ n next = σ := by
  unfold tryEmitNarrowSink at h
  split at h
  · dsimp only at h
    split at h
    · have hFlat : ∀ t ∈ access, tokBinds t = 0 ∧ ∀ σ todo, scopeBehind σ todo t = σ ∧
          tokHygienic floatText letNames σ todo t = readsAs floatText letNames σ t := by
        split at h
        all_goals
          first
          | (obtain rfl := Option.some.inj h
             simp [tokBinds, scopeBehind, tokHygienic, getGlobal, setGlobal, plusTok])
          | cases h
      exact ⟨Reads.words access hFlat, rfl, rfl, fun _ _ => rfl, fun _ _ => rfl⟩
    · cases h
  · cases h

mutual
theorem reads_expr : ∀ e : Expr, Reads floatText letNames (emitExpr r e) (exprBinders e)
    (fun σ n => exprClear floatText letNames r σ n e) fun σ n => exprScope σ n e
  | .lit l => by
    rw [emitExpr]
    exact (reads_literal l).of_eq rfl (fun σ n => by rw [exprClear]) fun σ n => by simp [exprScope]
  | .wordRef name span => by
    rw [emitExpr]
    exact (reads_reference name span).of_eq rfl (fun σ n => by rw [exprClear]) fun σ n => by simp [exprScope]
  | .tick name span => by
    rw [emitExpr]
    refine (reads_reference name span).quot.of_eq rfl (fun σ n => ?_) fun σ n => by simp [exprScope]
    rw [exprClear, quotClear, free_nil, Bool.and_true]
  | .ifElse thenBody none _ => by
    have hThen := (reads_body thenBody).quot
    rw [emitExpr]
    refine ((Reads.prim .zeroP).append (hThen.append (Reads.prim .unlessQ))).of_eq ?_
      (fun σ n => ?_) fun σ n => by simp [exprScope]
    · simp [exprBinders]
    · simp [exprClear, quotClear, free_nil, discards_nil, Prim.text, Bool.and_assoc]
  | .ifElse thenBody (some elseBody) _ => by
    have hThen := (reads_body thenBody).quot
    have hElse := (reads_body elseBody).quot
    rw [emitExpr]
    refine ((Reads.prim .zeroP).append (hElse.append (hThen.append (Reads.prim .ifQ)))).of_eq ?_
      (fun σ n => ?_) fun σ n => by simp [exprScope]
    · simp [exprBinders]
    · simp [exprClear, quotClear, free_nil, discards_nil, Prim.text, Bool.and_assoc]
  | .beginUntil body _ => by
    have hBody := ((reads_body body).append (Reads.prim .zeroP)).quot
    rw [emitExpr]
    refine (hBody.append (Reads.prim .loop)).of_eq ?_ (fun σ n => ?_) fun σ n => by simp [exprScope]
    · simp [exprBinders]
    · simp [exprClear, quotClear, Prim.text]
  | .beginAgain body _ => by
    have hBody := ((reads_body body).append (Reads.prim .t)).quot
    rw [emitExpr]
    refine (hBody.append (Reads.prim .loop)).of_eq ?_ (fun σ n => ?_) fun σ n => by simp [exprScope]
    · simp [exprBinders]
    · simp [exprClear, quotClear, Prim.text]
  | .beginWhileRepeat pred body _ => by
    have hBody := ((reads_body body).append (Reads.prim .t)).quot
    have hTail := (Reads.prim .zeroP).append ((Reads.prim .f).quot.append
      (hBody.append (@Reads.prim floatText letNames .ifQ)))
    have hPred := ((reads_body pred).append hTail).quot
    rw [emitExpr]
    refine (hPred.append (Reads.prim .loop)).of_eq ?_ (fun σ n => ?_) fun σ n => by simp [exprScope]
    · simp [exprBinders]
    · simp [exprClear, quotClear, Prim.text, discards_nil, free_cons _ _ (_ :: _), Bool.and_assoc]
  | .doLoop isQdo body loopKind _ => by
    have hStep : Reads floatText letNames (if loopKind = .plus1 then [Tok.int 1] else []) []
        (fun σ _ => σ.free (if loopKind = .plus1 then ["1"] else [])) fun σ _ => σ := by
      split
      · exact Reads.word rfl (fun _ _ => rfl) fun _ _ => rfl
      · exact Reads.nil
    have hBody := ((reads_body body).append hStep).quot
    rw [emitExpr]
    refine (hBody.append (Reads.prim (if isQdo then .qdoLoop else .doLoop))).of_eq ?_
      (fun σ n => ?_) fun σ n => by simp [exprScope]
    · simp [exprBinders]
    · cases isQdo <;> simp [exprClear, quotClear, Prim.text]
  | .caseOf arms none _ => by
    rw [emitExpr]
    refine (reads_arms arms _ _ _ _ (Reads.prim .kernelDrop)).of_eq ?_ (fun σ n => ?_)
      fun σ n => ?_
    · simp [exprBinders]
    · simp [exprClear, Prim.text]
    · rw [exprScope]
  | .caseOf arms (some default) _ => by
    rw [emitExpr]
    have hBase := (reads_body default).append (Reads.prim .kernelDrop)
    refine (reads_arms arms _ _ _ _ hBase).of_eq ?_ (fun σ n => ?_) fun σ n => ?_
    · simp [exprBinders]
    · simp [exprClear, Prim.text]
    · rw [exprScope]
  | .toValue name _ => by
    rw [emitExpr]
    refine (Reads.words _ (by simp [tokBinds, scopeBehind, tokHygienic, setGlobal])).of_eq rfl
      (fun σ n => ?_) fun σ n => by simp [exprScope]
    simp [exprClear, readsAs, tokNames, setGlobal, Target.toFactorToken, Bindings.free]
  | .see name _ => by
    rw [emitExpr]
    refine (Reads.words _ (by simp [tokBinds, scopeBehind, tokHygienic, runtimeWord])).of_eq rfl
      (fun σ n => ?_) fun σ n => by simp [exprScope]
    simp [exprClear, readsAs, tokNames, runtimeWord, Target.toFactorToken, Bindings.free]
  | .letForm form _ => by
    rw [emitExpr]
    refine (Reads.word rfl (fun _ _ => rfl) fun _ _ => rfl).of_eq rfl (fun σ n => ?_) fun σ n => by simp [exprScope]
    rw [exprClear]
    rfl
  | .locals names _ => by
    rw [emitExpr, emitLocals, exprBinders]
    exact (reads_bindings names.reverse).of_eq rfl (fun σ n => by rw [exprClear]) fun σ n => by simp [exprScope]

theorem reads_arms : ∀ (arms : List (CaseArm Expr)) (code : List Tok) (ls : List LocalDecl)
    (base : Bindings → Nat → Bool) (behind : Bindings → Nat → Bindings),
    Reads floatText letNames code ls base behind →
    Reads floatText letNames (emitCaseChain r arms code) (armsBinders arms ++ ls)
      (fun σ n => armsClear floatText letNames r σ n arms base behind)
      fun σ n => armsScope σ n arms behind
  | [], code, ls, base, behind, h => by
    rw [emitCaseChain, armsBinders]
    exact h.of_eq rfl (fun σ n => by rw [armsClear]) fun σ n => by rw [armsScope]
  | ⟨matchExpr, body, _⟩ :: arms, code, ls, base, behind, h => by
    have hRest := (reads_arms arms code ls base behind h).quot
    have hBody := ((Reads.prim .drop).append (reads_body body)).quot
    have hTail := (Reads.prim .eq).append (hBody.append (hRest.append (Reads.prim .ifQ)))
    have hArm := (Reads.prim .dup).append ((reads_body matchExpr).append hTail)
    rw [emitCaseChain]
    refine hArm.of_eq ?_ (fun σ n => ?_) fun σ n => ?_
    · simp [armsBinders]
    · simp [armsClear, quotClear, Prim.text, discards_nil, free_nil, Bool.and_assoc]
    · simp [armsScope, discards_nil]

theorem reads_body : ∀ es : List Expr, Reads floatText letNames (emitExprs r es) (bodyBinders es)
    (fun σ n => bodyClear floatText letNames r σ n es) fun σ n => bodyScope σ n es
  | [] => by
    rw [emitExprs, bodyBinders]
    exact Reads.nil.of_eq rfl (fun σ n => by rw [bodyClear]) fun σ n => by rw [bodyScope]
  | [e] => by
    rw [emitExprs]
    refine (reads_expr e).of_eq ?_ (fun σ n => ?_) fun σ n => ?_
    · simp [bodyBinders]
    · rw [bodyClear]
    · rw [bodyScope, bodyScope]
  | e :: next :: rest => by
    rw [emitExprs]
    cases h : tryEmitNarrowSink r.escape e next with
    | some access =>
      obtain ⟨hAccess, hFirst, hSecond, hScope, hScope'⟩ := reads_access h
      refine (hAccess.append (reads_body rest)).of_eq ?_ (fun σ n => ?_) fun σ n => ?_
      · simp [bodyBinders, hFirst, hSecond]
      · simp [bodyClear, h, discards_nil]
      · simp [bodyScope, hFirst, hSecond, hScope, hScope', discards_nil]
    | none =>
      refine ((reads_expr e).append (reads_body (next :: rest))).of_eq ?_ (fun σ n => ?_)
        fun σ n => ?_
      · simp only [bodyBinders]
      · simp only [bodyClear, h]
      · simp only [bodyScope]
end

/-- The emitted body, up to the `;` behind it. -/
theorem closed_entry (σ : Bindings) (n : Nat) (body : List Expr) :
    closedHygienic floatText letNames σ (written n (bodyBinders body)) (emitBody r body) =
      entryClear floatText letNames r σ n body := by
  have hClosed : ∀ {code ls clear behind}, Reads floatText letNames code ls clear behind →
      closedHygienic floatText letNames σ (written n ls) code =
        (clear σ n && (behind σ n).free [";"]) := by
    intro code ls clear behind h
    have hCode := h.hygienic σ n []
    have hBehind := h.behind σ n []
    rw [List.append_nil] at hCode hBehind
    rw [closedHygienic, hCode, hBehind]
  unfold emitBody entryClear
  split
  · have hReads := (@reads_body floatText letNames r body).quot.append (Reads.prim .withReturn)
    rw [List.append_nil] at hReads
    have hEntry := hClosed hReads
    rw [List.cons_append, List.nil_append] at hEntry
    rw [hEntry, quotClear, free_nil, Bool.and_true, free_cons _ _ [";"], Bool.and_assoc]
    rfl
  · exact hClosed (reads_body body)

end Reading

/-! The definition forms. -/

section Forms
variable (floatText : FloatLit → String) (letNames : LetLang.LetForm → List String)

def inputBinders (names : List String) : List (String × Binder) :=
  names.zipIdx.map fun p => (p.1, .input p.2)

def annotation (r : Sema) (d : Definition) : Option EffectText :=
  midLocalsAnnotation d.effect (r.bodyEffects.lookup (lower d.name))

/-- What the bindings of an emitted definition are written for, its head first. -/
def definitionNames (r : Sema) (n : Nat) (d : Definition) : List (String × Binder) :=
  if !d.locals.isEmpty then written n (d.locals ++ bodyBinders d.body)
  else if bodyUsesLocals d.body then
    match annotation r d with
    | some ann => inputBinders ann.inputs ++ written n (bodyBinders d.body)
    | none => rowVars.inputs.map (fun s => (s, .discard)) ++ written n (bodyBinders d.body)
  else written n (bodyBinders d.body)

/-- How many inputs the emitted definition pushes back. -/
def pushedInputs (r : Sema) (d : Definition) : Nat :=
  if d.locals.isEmpty && bodyUsesLocals d.body then
    match annotation r d with
    | some ann => ann.inputs.length
    | none => 0
  else 0

/-- No name that the definition binds takes a word that its body is written with: head locals are in
scope in all of it, and the inputs of a stack comment where its locals are all in the body. -/
def definitionClear (r : Sema) (n : Nat) (d : Definition) : Bool :=
  if !d.locals.isEmpty then
    entryClear floatText letNames r (headScope (written n d.locals)) (n + discards d.locals) d.body
  else if bodyUsesLocals d.body then
    match annotation r d with
    | some ann =>
      let σ := headScope (inputBinders ann.inputs)
      (inputBinders ann.inputs).all (fun b => σ.lookup b.1 == some b.2) &&
        entryClear floatText letNames r σ n d.body
    | none => entryClear floatText letNames r [] n d.body
  else entryClear floatText letNames r [] n d.body

def methodNames (n : Nat) (m : MethodDef) : List (String × Binder) :=
  if methodUsesHelper m && m.locals.isEmpty then
    inputBinders (indexed "a" m.effect.inputs.length) ++ written n (bodyBinders m.body)
  else written n (m.locals ++ bodyBinders m.body)

def methodClear (r : Sema) (n : Nat) (m : MethodDef) : Bool :=
  if methodUsesHelper m && m.locals.isEmpty then
    entryClear floatText letNames r
      (headScope (inputBinders (indexed "a" m.effect.inputs.length))) n m.body
  else entryClear floatText letNames r (headScope (written n m.locals)) (n + discards m.locals) m.body

variable {floatText letNames} {r : Sema}

theorem zipWith_written (n : Nat) (ls : List LocalDecl) (rest : List (String × Binder)) :
    List.zipWith (fun (s : Option String) b => (s.getD b.1, b.2))
      (ls.map fun l => bindingName l.name) (written n ls ++ rest) = written n ls := by
  induction ls generalizing n with
  | nil => rfl
  | cons l ls ih =>
    rw [written, List.map_cons]
    cases hName : bindingName l.name with
    | none => exact congrArg _ (ih (n + 1))
    | some text => exact congrArg _ (ih n)

theorem zipWith_inputs (names : List String) (rest : List (String × Binder)) :
    List.zipWith (fun (s : Option String) b => (s.getD b.1, b.2)) (names.map some)
      (inputBinders names ++ rest) = inputBinders names := by
  unfold inputBinders
  generalize 0 = i
  induction names generalizing i with
  | nil => rfl
  | cons s names ih =>
    rw [List.map_cons, List.zipIdx_cons, List.map_cons, List.cons_append, List.zipWith_cons_cons, ih]
    rfl

theorem pushesInputs_nameToks (σ : Bindings) (names : List String) :
    pushesInputs σ (nameToks names) =
      (inputBinders names).all fun b => σ.lookup b.1 == some b.2 := by
  unfold pushesInputs nameToks inputBinders
  generalize 0 = i
  induction names generalizing i with
  | nil => rfl
  | cons s names ih =>
    rw [List.map_cons, List.zipIdx_cons, List.all_cons, ih, List.zipIdx_cons, List.map_cons,
      List.all_cons]

/-- A head of locals, with a body behind it. -/
theorem line_locals (n : Nat) (name : String) (ls : List LocalDecl) (outputs : List String)
    (body : List Expr) :
    lineHygienic floatText letNames (written n (ls ++ bodyBinders body)) 0
        (.localsColon name (ls.map fun l => bindingName l.name) outputs (emitBody r body)) =
      entryClear floatText letNames r (headScope (written n ls)) (n + discards ls) body := by
  have hDrop : (written n ls ++ written (n + discards ls) (bodyBinders body)).drop ls.length =
      written (n + discards ls) (bodyBinders body) := by
    rw [← length_written n ls, List.drop_left]
  unfold lineHygienic
  dsimp only
  rw [written_append, zipWith_written, List.length_map, hDrop, List.drop_zero, closed_entry]
  rfl

/-- A head of inputs, which the code behind it may push back. -/
theorem line_inputs (n : Nat) (name : String) (inputs outputs : List String) (pushed : List String)
    (body : List Expr) :
    lineHygienic floatText letNames (inputBinders inputs ++ written n (bodyBinders body))
        pushed.length
        (.localsColon name (inputs.map some) outputs (nameToks pushed ++ emitBody r body)) =
      (pushesInputs (headScope (inputBinders inputs)) (nameToks pushed) &&
        entryClear floatText letNames r (headScope (inputBinders inputs)) n body) := by
  have hLength : (inputBinders inputs).length = inputs.length := by simp [inputBinders]
  have hPushed : (nameToks pushed).length = pushed.length := by simp [nameToks]
  have hDrop : (inputBinders inputs ++ written n (bodyBinders body)).drop inputs.length =
      written n (bodyBinders body) := by
    rw [← hLength, List.drop_left]
  unfold lineHygienic
  dsimp only
  rw [zipWith_inputs, List.length_map, hDrop, ← hPushed, List.take_left, List.drop_left,
    closed_entry]

theorem line_definition (n : Nat) (d : Definition) :
    lineHygienic floatText letNames (definitionNames r n d) (pushedInputs r d)
      (emitDefinition d r) = definitionClear floatText letNames r n d := by
  unfold definitionNames pushedInputs emitDefinition definitionClear
  dsimp only
  by_cases hLocals : d.locals.isEmpty = true
  · simp only [hLocals, Bool.not_true, Bool.false_eq_true, if_false, Bool.true_and]
    by_cases hUses : bodyUsesLocals d.body = true
    · simp only [hUses, if_true]
      show lineHygienic floatText letNames _ _ (match annotation r d with
        | some ann => _
        | none => _) = _
      cases annotation r d with
      | some ann =>
        show lineHygienic floatText letNames _ ann.inputs.length _ = _
        rw [line_inputs, pushesInputs_nameToks]
      | none =>
        show closedHygienic floatText letNames [] (written n (bodyBinders d.body))
          (emitBody r d.body) = _
        exact closed_entry _ _ _
    · simp only [hUses]
      exact closed_entry _ _ _
  · simp only [hLocals, Bool.not_false, if_true, Bool.false_and]
    exact line_locals n _ d.locals _ d.body

theorem line_method (n : Nat) (m : MethodDef) (aux : List String) (helper : Nat) :
    (emitMethod m r aux helper).1.all (lineHygienic floatText letNames (methodNames n m) 0) =
      methodClear floatText letNames r n m := by
  have hCall : ∀ named name, closedHygienic floatText letNames [] named [userTok name] = true :=
    fun _ _ => rfl
  unfold emitMethod methodNames methodClear
  by_cases hHelper : methodUsesHelper m = true
  · simp only [hHelper, if_true, Bool.true_and, List.all_cons, List.all_nil, Bool.and_true]
    unfold methodHelperInputs
    by_cases hLocals : m.locals.isEmpty = true
    · simp only [hLocals, if_true]
      have hLine := @line_inputs floatText letNames r n
        (methodHelperName m (helper + 1)) (indexed "a" m.effect.inputs.length)
        (indexed "r" m.effect.outputs.length) [] m.body
      have hMethod : ∀ named target specializers, lineHygienic floatText letNames named 0
          (.method target specializers [userTok (methodHelperName m (helper + 1))]) = true :=
        fun _ _ _ => hCall _ _
      rw [hMethod, Bool.and_true]
      exact hLine
    · simp only [hLocals]
      have hMethod : ∀ named target specializers, lineHygienic floatText letNames named 0
          (.method target specializers [userTok (methodHelperName m (helper + 1))]) = true :=
        fun _ _ _ => hCall _ _
      rw [hMethod, Bool.and_true]
      exact line_locals n _ m.locals _ m.body
  · have hNone : m.locals = [] := by
      have hEmpty : m.locals.isEmpty = true := by
        by_contra hNot
        exact hHelper (by simp [methodUsesHelper, hNot])
      exact List.isEmpty_iff.mp hEmpty
    simp only [hHelper, Bool.false_and, Bool.false_eq_true, if_false, List.all_cons, List.all_nil,
      Bool.and_true, hNone, List.nil_append]
    exact closed_entry _ _ _

end Forms

/-- An emitted definition or method is read as it was meant exactly when no name it binds takes a word
that its body is written with and every reference to a local finds that local. -/
theorem emit_hygienic (floatText : FloatLit → String) (letNames : LetLang.LetForm → List String)
    (r : Sema) (n : Nat) :
    (∀ d, lineHygienic floatText letNames (definitionNames r n d) (pushedInputs r d)
        (emitDefinition d r) = true ↔ definitionClear floatText letNames r n d = true) ∧
    ∀ m aux helper,
      (∀ line ∈ (emitMethod m r aux helper).1,
        lineHygienic floatText letNames (methodNames n m) 0 line = true) ↔
      methodClear floatText letNames r n m = true := by
  constructor
  · intro d
    rw [line_definition]
  · intro m aux helper
    rw [← List.all_eq_true, line_method]

/-- A loop that leaves by the word `f`, in the scope of a local of that name. -/
theorem emit_not_hygienic :
    ¬ ∀ (source : String) (s : Sema), (analyse noLet noFiles source .new 0).result = .ok s →
      ∀ d, Item.definition d ∈ s.program.items → ∀ n,
        lineHygienic FloatLit.raw (fun _ => []) (definitionNames s n d) (pushedInputs s d)
          (emitDefinition d s) = true := by
  intro h
  have hTaken : (analyse noLet noFiles ": w {: f :} begin f while repeat ;" .new 0).result.toOption.map
      (fun s => (definitions s.program.items).all fun d => lineHygienic FloatLit.raw (fun _ => [])
        (definitionNames s 0 d) (pushedInputs s d) (emitDefinition d s)) = some false := by
    decide +kernel
  cases hOk : (analyse noLet noFiles ": w {: f :} begin f while repeat ;" .new 0).result with
  | error e => simp [hOk, Except.toOption] at hTaken
  | ok s =>
    rw [hOk] at hTaken
    apply Bool.eq_false_iff.mp (Option.some.inj hTaken)
    rw [List.all_eq_true]
    intro d hd
    exact h _ s hOk d (mem_definitions.mp hd) 0

end FactorForth.Correctness
