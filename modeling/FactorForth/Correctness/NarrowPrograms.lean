import FactorForth.Correctness.DefinitionOrder
import FactorForth.Correctness.MethodDispatch
import FactorForth.Correctness.NarrowVariables

/-! A program with narrow variables and the same program with wide ones: the emitted code differs in the
accesses of the variables and in their declarations, and the two run alike. -/

namespace FactorForth.Correctness
open FactorForth.Library FactorForth.Compiler FactorForth.Semantics

/-- The variables that a program keeps in globals of their own. -/
def IsNarrow (r : Sema) (x : String) : Prop := r.escape.lookup x = some .narrow

instance (r : Sema) (x : String) : Decidable (IsNarrow r x) := inferInstanceAs (Decidable (_ = _))

/-- The program with all its variables kept behind addresses, as a session compiles it. -/
def widened (r : Sema) : Sema := r.forSession r.docs

/-- The runtime words behind the sinks that move a whole cell. -/
def cellSink : String → Option Target
  | "@" => some (.qualifiedBuiltin "forth.runtime" "@")
  | "!" => some (.qualifiedBuiltin "forth.runtime" "nf-!")
  | "+!" => some (.qualifiedBuiltin "forth.runtime" "nf-+!")
  | _ => none

/-- A reference to a narrow variable resolves to its word and is behind it moved as a whole cell; any other
reference names something else. -/
def UseApart (r : Sema) (u : Use) : Prop :=
  if IsNarrow r (lower u.name) then
    r.wordTargets.lookup u.span = some (.userDefined (mangled u.name)) ∧
      ∃ sink span t, u.next = some (.wordRef sink span) ∧ cellSink (lower sink) = some t ∧
        r.wordTargets.lookup span = some t
  else Shared (IsNarrow r) (emitWord r u.name u.span)

/-- No tick takes the word of a narrow variable. -/
def TickApart (r : Sema) : Expr → Prop
  | .tick name span => Shared (IsNarrow r) (emitWord r name span)
  | _ => True

section Emission
variable {r : Sema}

theorem widened_wide (r : Sema) : Wide (widened r) := forSession_wide _ _

theorem emitWord_widened (r : Sema) (name : String) (span : Span) :
    emitWord (widened r) name span = emitWord r name span := rfl

theorem UseApart.narrow {u : Use} (h : UseApart r u) (hNarrow : IsNarrow r (lower u.name)) :
    emitWord r u.name u.span = userTok (mangled u.name) ∧
      ∃ sink span t, u.next = some (.wordRef sink span) ∧ cellSink (lower sink) = some t ∧
        emitWord r sink span = .word t := by
  unfold UseApart at h
  rw [if_pos hNarrow] at h
  obtain ⟨hWord, sink, span, t, hNext, hSink, hTarget⟩ := h
  unfold emitWord
  exact ⟨by rw [hWord]; rfl, sink, span, t, hNext, hSink, by rw [hTarget]⟩

theorem UseApart.other {u : Use} (h : UseApart r u) (hOther : ¬ IsNarrow r (lower u.name)) :
    Shared (IsNarrow r) (emitWord r u.name u.span) := by
  unfold UseApart at h
  rwa [if_neg hOther] at h

theorem tryEmitNarrowSink_narrow {x sink : String} (span sinkSpan : Span) (hNarrow : IsNarrow r (lower x))
    {t : Target} (hSink : cellSink (lower sink) = some t) :
    ∃ access, tryEmitNarrowSink r.escape (.wordRef x span) (.wordRef sink sinkSpan) = some access ∧
      Access (IsNarrow r) access [userTok (mangled x), .word t] := by
  have hEscape : r.escape.lookup (lower x) = some .narrow := hNarrow
  unfold tryEmitNarrowSink
  dsimp only
  rw [if_pos hEscape]
  unfold cellSink at hSink
  split at hSink
  · rename_i hName
    obtain rfl := Option.some.inj hSink
    rw [hName]
    exact ⟨_, rfl, .fetch hNarrow⟩
  · rename_i hName
    obtain rfl := Option.some.inj hSink
    rw [hName]
    exact ⟨_, rfl, .store hNarrow⟩
  · rename_i hName
    obtain rfl := Option.some.inj hSink
    rw [hName]
    exact ⟨_, rfl, .plusStore hNarrow⟩
  · cases hSink

/-- A block that starts with a reference to a narrow variable. -/
theorem emitExprs_narrow {x : String} {span : Span} (es : List Expr) (hNarrow : IsNarrow r (lower x))
    (hUse : UseApart r ⟨x, span, es.head?⟩) :
    ∃ sink sinkSpan rest access t, es = .wordRef sink sinkSpan :: rest ∧
      Access (IsNarrow r) access [userTok (mangled x), .word t] ∧
      emitExprs r (.wordRef x span :: es) = access ++ emitExprs r rest ∧
      emitExprs (widened r) (.wordRef x span :: es) =
        [userTok (mangled x), .word t] ++ emitExprs (widened r) rest := by
  obtain ⟨hWord, sink, sinkSpan, t, hNext, hSink, hTarget⟩ := hUse.narrow hNarrow
  cases es with
  | nil => cases hNext
  | cons next rest =>
    obtain rfl := Option.some.inj hNext
    obtain ⟨access, hAccess, hLike⟩ := tryEmitNarrowSink_narrow span sinkSpan hNarrow hSink
    refine ⟨sink, sinkSpan, rest, access, t, rfl, hLike, by rw [emitExprs, hAccess], ?_⟩
    rw [emitExprs_cons (widened_wide r), emitExprs_cons (widened_wide r), emitExpr, emitExpr,
      emitWord_widened, emitWord_widened, hWord, hTarget]
    rfl

theorem tryEmitNarrowSink_other {e next : Expr}
    (h : ∀ x span, e = .wordRef x span → ¬ IsNarrow r (lower x)) : tryEmitNarrowSink r.escape e next = none := by
  unfold tryEmitNarrowSink
  split
  · rename_i x span _ _
    exact if_neg (h x span rfl)
  · rfl

/-! The code of a body. -/

variable {α : Type}

theorem shared_code {code : List Tok} (h : ∀ t ∈ code, Shared (IsNarrow r) t) :
    (narrowing (IsNarrow r) α).Code code code := Pairing.Code.same h

theorem prim_code (p : Prim) : (narrowing (IsNarrow r) α).Code [.prim p] [.prim p] := .plain trivial .nil

theorem quot_code {p q : List Tok} (h : (narrowing (IsNarrow r) α).Code p q) :
    (narrowing (IsNarrow r) α).Code [.quot p] [.quot q] := .quot h .nil

/-- The globals of the other storage words. -/
theorem storage_shared {stem : String} (hStem : stem ∈ ["nf-value-", "nf-coll-", "nf-create-", "nf-tmpl-"])
    (name : String) : Shared (IsNarrow r) (.symbol (stem ++ name)) := by
  simp only [List.mem_cons, List.not_mem_nil, or_false] at hStem
  rintro ⟨x, -, hName | hName⟩
  · have hChars := congrArg String.toList hName
    unfold factorUserName userNamePrefix at hChars
    rw [String.toList_append, String.toList_append] at hChars
    obtain rfl | rfl | rfl | rfl := hStem <;> cases hChars
  · have hChars := congrArg String.toList hName
    unfold hiddenName at hChars
    rw [String.toList_append, String.toList_append] at hChars
    obtain rfl | rfl | rfl | rfl := hStem <;> cases hChars

theorem literal_code (l : Literal) : (narrowing (IsNarrow r) α).Code (emitLiteral l) (emitLiteral l) := by
  refine shared_code fun t ht => ?_
  cases l with
  | int value span =>
    obtain rfl := List.mem_singleton.1 ht
    trivial
  | float value span =>
    obtain rfl := List.mem_singleton.1 ht
    trivial
  | str value kind span =>
    cases kind <;> simp only [emitLiteral, List.mem_cons, List.not_mem_nil, or_false] at ht
    · obtain rfl | rfl := ht <;> trivial
    · obtain rfl | rfl := ht <;> trivial
    · obtain rfl := ht
      trivial
    · obtain rfl := ht
      trivial

section Bodies
variable (α)

mutual
theorem emitExpr_code : ∀ e : Expr, (∀ u ∈ exprUses e, UseApart r u) → (∀ l ∈ exprLeaves e, TickApart r l) →
    (∀ x span, e = .wordRef x span → Shared (IsNarrow r) (emitWord r x span)) →
    (narrowing (IsNarrow r) α).Code (emitExpr r e) (emitExpr (widened r) e)
  | .lit l, _, _, _ => literal_code l
  | .wordRef x span, _, _, hOwn => .plain (hOwn x span rfl) .nil
  | .ifElse thenBody none _, hUses, hTicks, _ => by
    rw [emitExpr, emitExpr]
    exact .plain trivial (.quot (emitExprs_code thenBody hUses hTicks) (prim_code _))
  | .ifElse thenBody (some elseBody) _, hUses, hTicks, _ => by
    rw [exprUses, List.forall_mem_append] at hUses
    rw [exprLeaves, List.forall_mem_append] at hTicks
    rw [emitExpr, emitExpr]
    exact .plain trivial (.quot (emitExprs_code elseBody hUses.2 hTicks.2)
      (.quot (emitExprs_code thenBody hUses.1 hTicks.1) (prim_code _)))
  | .beginUntil body _, hUses, hTicks, _ => by
    rw [emitExpr, emitExpr]
    exact .quot ((emitExprs_code body hUses hTicks).append (prim_code _)) (prim_code _)
  | .beginWhileRepeat pred body _, hUses, hTicks, _ => by
    rw [exprUses, List.forall_mem_append] at hUses
    rw [exprLeaves, List.forall_mem_append] at hTicks
    rw [emitExpr, emitExpr]
    have hBody := (emitExprs_code body hUses.2 hTicks.2).append (prim_code .t)
    exact .quot ((emitExprs_code pred hUses.1 hTicks.1).append
      (.plain trivial (.quot (prim_code _) (.quot hBody (prim_code _))))) (prim_code _)
  | .beginAgain body _, hUses, hTicks, _ => by
    rw [emitExpr, emitExpr]
    exact .quot ((emitExprs_code body hUses hTicks).append (prim_code _)) (prim_code _)
  | .doLoop isQdo body loopKind _, hUses, hTicks, _ => by
    rw [emitExpr, emitExpr]
    have hStep : (narrowing (IsNarrow r) α).Code (if loopKind = .plus1 then [Tok.int 1] else [])
        (if loopKind = .plus1 then [Tok.int 1] else []) := by
      split
      · exact .plain trivial .nil
      · exact .nil
    exact .quot ((emitExprs_code body hUses hTicks).append hStep) (prim_code _)
  | .caseOf arms none _, hUses, hTicks, _ => by
    rw [emitExpr, emitExpr]
    exact emitCaseChain_code arms hUses hTicks (prim_code _)
  | .caseOf arms (some default) _, hUses, hTicks, _ => by
    rw [exprUses, List.forall_mem_append] at hUses
    rw [exprLeaves, List.forall_mem_append] at hTicks
    rw [emitExpr, emitExpr]
    exact emitCaseChain_code arms hUses.1 hTicks.1
      ((emitExprs_code default hUses.2 hTicks.2).append (prim_code _))
  | .tick name span, _, hTicks, _ => quot_code (.plain (hTicks _ List.mem_cons_self) .nil)
  | .toValue name _, _, _, _ => by
    rw [emitExpr, emitExpr]
    exact .plain (storage_shared List.mem_cons_self _) (.plain trivial .nil)
  | .see name _, _, _, _ => .plain trivial (.plain trivial .nil)
  | .letForm form _, _, _, _ => .plain trivial .nil
  | .locals names _, _, _, _ => by
    rw [emitExpr, emitExpr]
    refine shared_code fun t ht => ?_
    obtain ⟨l, -, rfl⟩ := List.mem_map.1 ht
    trivial

theorem emitCaseChain_code : ∀ arms : List (CaseArm Expr), (∀ u ∈ armsUses arms, UseApart r u) →
    (∀ l ∈ armsLeaves arms, TickApart r l) → ∀ {base base' : List Tok},
    (narrowing (IsNarrow r) α).Code base base' →
    (narrowing (IsNarrow r) α).Code (emitCaseChain r arms base) (emitCaseChain (widened r) arms base')
  | [], _, _, _, _, hBase => by
    rw [emitCaseChain, emitCaseChain]
    exact hBase
  | ⟨matchExpr, body, _⟩ :: arms, hUses, hTicks, _, _, hBase => by
    rw [armsUses, List.forall_mem_append, List.forall_mem_append] at hUses
    rw [armsLeaves, List.forall_mem_append, List.forall_mem_append] at hTicks
    rw [emitCaseChain, emitCaseChain]
    have hRest := emitCaseChain_code arms hUses.2 hTicks.2 hBase
    have hBody := emitExprs_code body hUses.1.2 hTicks.1.2
    exact .plain trivial ((emitExprs_code matchExpr hUses.1.1 hTicks.1.1).append
      (.plain trivial (.quot (.plain trivial hBody) (.quot hRest (prim_code _)))))

/-- The accesses of the narrow variables are all that differs. -/
theorem emitExprs_code : ∀ es : List Expr, (∀ u ∈ uses es, UseApart r u) → (∀ l ∈ leaves es, TickApart r l) →
    (narrowing (IsNarrow r) α).Code (emitExprs r es) (emitExprs (widened r) es)
  | [], _, _ => by
    rw [emitExprs, emitExprs]
    exact .nil
  | [e], hUses, hTicks => by
    rw [uses, List.forall_mem_append, List.forall_mem_append] at hUses
    rw [leaves, List.forall_mem_append] at hTicks
    rw [emitExprs, emitExprs]
    refine emitExpr_code e hUses.1.1 hTicks.1 ?_
    rintro x span rfl
    have hUse := hUses.1.2 ⟨x, span, none⟩ List.mem_cons_self
    refine hUse.other fun hNarrow => ?_
    obtain ⟨-, sink, sinkSpan, t, hNext, -⟩ := hUse.narrow hNarrow
    cases hNext
  | e :: next :: rest, hUses, hTicks => by
    rw [uses, List.forall_mem_append, List.forall_mem_append] at hUses
    rw [leaves, List.forall_mem_append] at hTicks
    by_cases hRef : ∃ x span, e = .wordRef x span ∧ IsNarrow r (lower x)
    · obtain ⟨x, span, rfl, hNarrow⟩ := hRef
      obtain ⟨sink, sinkSpan, rest', access, t, hNext, hLike, hCode, hWide⟩ :=
        emitExprs_narrow (next :: rest) hNarrow (hUses.1.2 ⟨x, span, some next⟩ List.mem_cons_self)
      obtain ⟨rfl, rfl⟩ := List.cons.inj hNext
      rw [hCode, hWide]
      have hRestUses := hUses.2
      have hRestTicks := hTicks.2
      rw [uses, List.forall_mem_append] at hRestUses
      rw [leaves, List.forall_mem_append] at hRestTicks
      exact .access hLike (emitExprs_code rest hRestUses.2 hRestTicks.2)
    · have hOther : ∀ x span, e = .wordRef x span → ¬ IsNarrow r (lower x) :=
        fun x span hEq hNarrow => hRef ⟨x, span, hEq, hNarrow⟩
      rw [emitExprs, tryEmitNarrowSink_other hOther, emitExprs_cons (widened_wide r)]
      refine (emitExpr_code e hUses.1.1 hTicks.1 ?_).append (emitExprs_code (next :: rest) hUses.2 hTicks.2)
      rintro x span rfl
      exact (hUses.1.2 ⟨x, span, some next⟩ List.mem_cons_self).other (hOther x span rfl)
end

end Bodies

theorem emitBody_code {body : List Expr} (hUses : ∀ u ∈ uses body, UseApart r u)
    (hTicks : ∀ l ∈ leaves body, TickApart r l) :
    (narrowing (IsNarrow r) α).Code (emitBody r body) (emitBody (widened r) body) := by
  have hCode := emitExprs_code α body hUses hTicks
  show Pairing.Code _ (if bodyUsesExit r.wordTargets body then _ else _)
    (if bodyUsesExit r.wordTargets body then _ else _)
  split
  · exact .quot hCode (prim_code _)
  · exact hCode

theorem readInput_code {p q : List Tok} (h : (narrowing (IsNarrow r) α).Code p q)
    (inputs : List (Option String)) :
    (narrowing (IsNarrow r) α).Code (p.map (readInput inputs)) (q.map (readInput inputs)) := by
  induction h with
  | nil => exact .nil
  | @plain t _ _ hPlain _ ih =>
    refine .plain ?_ ih
    unfold readInput
    split
    · split <;> trivial
    · exact hPlain
  | quot hQuot _ _ ih => exact .quot hQuot ih
  | @access a b _ _ hAccess _ ih =>
    have hKept : a.map (readInput inputs) = a ∧ b.map (readInput inputs) = b := by
      cases hAccess <;> exact ⟨rfl, rfl⟩
    rw [List.map_append, List.map_append, hKept.1, hKept.2]
    exact .access hAccess ih

end Emission

/-! The lines of a program. -/

/-- Two forms that define the same words, in the like way where they are colon forms. -/
structure SameForm (r : Sema) (α : Type) (l l' : Line) : Prop where
  defines : Line.defines l' = Line.defines l
  own : ∀ w ∈ Line.defines l, ¬ Reserved (IsNarrow r) w
  code : (narrowing (IsNarrow r) α).Lines l l' ∨ Pairing.isColon l = false ∧ Pairing.isColon l' = false

/-- The sources of the two programs, with the narrow variables they declare. -/
inductive SameSource (r : Sema) (α : Type) : List String → Ir → Ir → Prop
  | nil : SameSource r α [] [] []
  | form {l l' : Line} {xs : List String} {ir ir' : Ir} (h : SameForm r α l l') (hRest : SameSource r α xs ir ir') :
      SameSource r α xs (l :: ir) (l' :: ir')
  | variable_ {x : String} (hx : IsNarrow r x) {init init' : List Tok} {xs : List String} {ir ir' : Ir}
      (hRest : SameSource r α xs ir ir') :
      SameSource r α (x :: xs) (.symbol (factorUserName x) :: .exec init :: ir)
        (.symbol (hiddenName x) :: .exec init' :: addressLine x :: ir')

section SameSource
variable {r : Sema} {α : Type} {xs ys : List String} {ir ir' : Ir}

theorem SameSource.append {jr jr' : Ir} (h : SameSource r α xs ir ir') (hRest : SameSource r α ys jr jr') :
    SameSource r α (xs ++ ys) (ir ++ jr) (ir' ++ jr') := by
  induction h with
  | nil => exact hRest
  | form hForm _ ih => exact .form hForm ih
  | variable_ hx _ ih => exact .variable_ hx ih

theorem SameSource.flatMap {β : Type} {f g : β → Ir} {names : β → List String} {items : List β}
    (h : ∀ item ∈ items, SameSource r α (names item) (f item) (g item)) :
    SameSource r α (items.flatMap names) (items.flatMap f) (items.flatMap g) := by
  induction items with
  | nil => exact .nil
  | cons item items ih =>
    exact (h item List.mem_cons_self).append (ih fun item hItem => h item (List.mem_cons_of_mem _ hItem))

theorem currentDef_cons (l : Line) (ir : Ir) (w : String) :
    currentDef (l :: ir) w = (currentDef ir w).or (if w ∈ Line.defines l then some l else none) := by
  rw [← List.singleton_append, currentDef_append]
  congr 1
  by_cases hMem : w ∈ Line.defines l
  · simp [currentDef, hMem]
  · simp [currentDef, hMem]

/-- A word that is no variable's is defined by like forms, or by none. -/
theorem SameSource.defined (h : SameSource r α xs ir ir') {w : String} (hw : ¬ Reserved (IsNarrow r) w) :
    currentDef ir w = none ∧ currentDef ir' w = none ∨
      ∃ l l', currentDef ir w = some l ∧ currentDef ir' w = some l' ∧ SameForm r α l l' := by
  induction h with
  | nil => exact Or.inl ⟨rfl, rfl⟩
  | @form l l' _ _ _ hForm _ ih =>
    rw [currentDef_cons, currentDef_cons, hForm.defines]
    obtain ⟨hNone, hNone'⟩ | ⟨k, k', hSome, hSome', hLike⟩ := ih
    · rw [hNone, hNone']
      split
      · exact Or.inr ⟨l, l', rfl, rfl, hForm⟩
      · exact Or.inl ⟨rfl, rfl⟩
    · rw [hSome, hSome']
      exact Or.inr ⟨k, k', rfl, rfl, hLike⟩
  | @variable_ x hx init init' _ ir ir' _ ih =>
    have hUser : w ≠ factorUserName x := fun hEq => hw ⟨x, hx, Or.inl hEq⟩
    have hHidden : w ≠ hiddenName x := fun hEq => hw ⟨x, hx, Or.inr hEq⟩
    have hNarrow : w ∉ Line.defines (.symbol (factorUserName x)) := by
      simpa only [Line.defines, List.mem_singleton] using hUser
    have hSymbol : w ∉ Line.defines (.symbol (hiddenName x)) := by
      simpa only [Line.defines, List.mem_singleton] using hHidden
    have hWord : w ∉ Line.defines (addressLine x) := by
      simpa only [addressLine, Line.defines, List.mem_singleton] using hUser
    have hExec (code : List Tok) : w ∉ Line.defines (.exec code) := List.not_mem_nil
    rw [currentDef_cons, currentDef_cons, currentDef_cons, currentDef_cons, currentDef_cons, if_neg hNarrow,
      if_neg hSymbol, if_neg hWord, if_neg (hExec init), if_neg (hExec init')]
    simpa only [Option.or_none] using ih

/-- The hidden global of a variable is no word with code. -/
theorem SameSource.hidden (h : SameSource r α xs ir ir') {x : String} (hx : IsNarrow r x) :
    currentDef ir (hiddenName x) = none ∧
      ∀ l, currentDef ir' (hiddenName x) = some l → Pairing.isColon l = false := by
  induction h with
  | nil => exact ⟨rfl, fun l hl => by cases hl⟩
  | @form l l' _ _ _ hForm _ ih =>
    have hOther : hiddenName x ∉ Line.defines l := fun hMem => hForm.own _ hMem ⟨x, hx, Or.inr rfl⟩
    simpa only [currentDef_cons, hForm.defines, hOther, if_false, Option.or_none] using ih
  | @variable_ y _ init init' _ ir ir' _ ih =>
    have hNarrow : hiddenName x ∉ Line.defines (.symbol (factorUserName y)) := by
      simpa only [Line.defines, List.mem_singleton] using (factorUserName_ne_hidden y x).symm
    have hWord : hiddenName x ∉ Line.defines (addressLine y) := by
      simpa only [addressLine, Line.defines, List.mem_singleton] using (factorUserName_ne_hidden y x).symm
    have hExec (code : List Tok) : hiddenName x ∉ Line.defines (.exec code) := List.not_mem_nil
    rw [currentDef_cons, currentDef_cons, currentDef_cons, currentDef_cons, currentDef_cons, if_neg hNarrow,
      if_neg hWord, if_neg (hExec init), if_neg (hExec init')]
    simp only [Option.or_none]
    refine ⟨ih.1, fun l hl => ?_⟩
    obtain hl | ⟨-, hl⟩ := Option.or_eq_some_iff.1 hl
    · exact ih.2 l hl
    · split at hl
      · obtain rfl := Option.some.inj hl
        rfl
      · cases hl

/-- A wide variable has its word where it is declared. -/
theorem SameSource.address (h : SameSource r α xs ir ir') (hApart : VariablesApart (IsNarrow r)) {x : String}
    (hx : IsNarrow r x) :
    currentDef ir' (factorUserName x) = if x ∈ xs then some (addressLine x) else none := by
  induction h with
  | nil => rfl
  | @form l l' _ _ _ hForm _ ih =>
    have hOther : factorUserName x ∉ Line.defines l := fun hMem => hForm.own _ hMem ⟨x, hx, Or.inl rfl⟩
    rw [currentDef_cons, hForm.defines, if_neg hOther, Option.or_none, ih]
  | @variable_ y hy init init' xs ir ir' _ ih =>
    have hSymbol : factorUserName x ∉ Line.defines (.symbol (hiddenName y)) := by
      simpa only [Line.defines, List.mem_singleton] using factorUserName_ne_hidden x y
    have hExec : factorUserName x ∉ Line.defines (.exec init') := List.not_mem_nil
    rw [currentDef_cons, currentDef_cons, currentDef_cons, if_neg hSymbol, if_neg hExec, ih, Option.or_none,
      Option.or_none]
    by_cases hMem : x ∈ xs
    · rw [if_pos hMem, if_pos (List.mem_cons_of_mem _ hMem), Option.some_or]
    · rw [if_neg hMem, Option.none_or]
      by_cases hEq : x = y
      · subst hEq
        rw [if_pos List.mem_cons_self, if_pos (by simp only [addressLine, Line.defines, List.mem_singleton])]
      · have hOther : factorUserName x ∉ Line.defines (addressLine y) := by
          simp only [addressLine, Line.defines, List.mem_singleton]
          exact fun hName => hEq (hApart x y hx hy hName)
        rw [if_neg hOther, if_neg (List.not_mem_cons_of_ne_of_not_mem hEq hMem)]

theorem SameSource.defs (h : SameSource r α xs ir ir') :
    (narrowing (IsNarrow r) α).Defs (currentDef ir) (currentDef ir') := by
  intro w hw
  by_cases hReserved : Reserved (IsNarrow r) w
  · obtain ⟨x, hx, rfl | rfl⟩ := hReserved
    · exact absurd rfl (hw x hx)
    · obtain ⟨hNone, hColon⟩ := h.hidden hx
      refine Or.inr ⟨fun l hl => ?_, hColon⟩
      rw [hNone] at hl
      cases hl
  · obtain ⟨hNone, hNone'⟩ | ⟨l, l', hl, hl', hLike⟩ := h.defined hReserved
    · refine Or.inr ⟨fun l hl => ?_, fun l hl => ?_⟩
      · rw [hNone] at hl
        cases hl
      · rw [hNone'] at hl
        cases hl
    · obtain hLines | ⟨hColon, hColon'⟩ := hLike.code
      · exact Or.inl ⟨l, l', hl, hl', hLines⟩
      · refine Or.inr ⟨fun k hk => ?_, fun k hk => ?_⟩
        · rw [hl] at hk
          obtain rfl := Option.some.inj hk
          exact hColon
        · rw [hl'] at hk
          obtain rfl := Option.some.inj hk
          exact hColon'

end SameSource

/-! The emission of a program. -/

/-- The code of a colon form. -/
def lineToks : Line → List Tok
  | .colon _ _ body _ => body
  | .localsColon _ _ _ body => body
  | _ => []

/-- The forms that a class or a generic adds to a program. -/
def Item.added (r : Sema) (aux : List String) : Item → Ir
  | .class_ c => emitClass c r
  | .generic g => emitGeneric g aux
  | _ => []

def narrowName (r : Sema) : Item → List String
  | .variable v => if IsNarrow r (lower v.name) then [lower v.name] else []
  | _ => []

/-- The words that the program has for its narrow variables are its own: what is written for the other items
neither defines nor names one, and a sink behind one of them is the runtime's. -/
structure KeepsVariables (r : Sema) (helper : Nat) : Prop where
  apart : VariablesApart (IsNarrow r)
  word : ∀ u ∈ programUses r.program.items, IsNarrow r (lower u.name) →
    r.wordTargets.lookup u.span = some (.userDefined (mangled u.name))
  sink : ∀ u ∈ programUses r.program.items, IsNarrow r (lower u.name) → ∀ sink span,
    u.next = some (.wordRef sink span) → ∃ t, cellSink (lower sink) = some t ∧ r.wordTargets.lookup span = some t
  other : ∀ u ∈ programUses r.program.items, ¬ IsNarrow r (lower u.name) →
    Shared (IsNarrow r) (emitWord r u.name u.span)
  ticks : ∀ body ∈ r.program.items.flatMap Item.escapeBodies, ∀ l ∈ leaves body, TickApart r l
  calls : ∀ item ∈ r.program.items, ∀ w ∈ (Item.added r (auxGenerics r.program.items) item).flatMap Line.uses,
    ∀ x, IsNarrow r x → w ≠ factorUserName x
  defines : ∀ item ∈ r.program.items, narrowName r item = [] →
    ∀ w ∈ (Item.lines r (auxGenerics r.program.items) item).flatMap Line.defines, ¬ Reserved (IsNarrow r) w
  helpers : ∀ w ∈ (emitMethods r (auxGenerics r.program.items) r.program.items helper).1.flatMap Line.defines,
    ¬ Reserved (IsNarrow r) w

section Program
variable {r : Sema} {α : Type}

theorem lines_defines {l l' : Line} (h : (narrowing (IsNarrow r) α).Lines l l') :
    Line.defines l' = Line.defines l := by
  cases h <;> rfl

theorem sameForm_refl {l : Line} (hOwn : ∀ w ∈ Line.defines l, ¬ Reserved (IsNarrow r) w)
    (hToks : ∀ t ∈ lineToks l, Shared (IsNarrow r) t) : SameForm r α l l := by
  refine ⟨rfl, hOwn, ?_⟩
  cases l with
  | colon name effect body inline => exact Or.inl (.colon name effect inline (shared_code hToks))
  | localsColon name inputs outputs body =>
    exact Or.inl (.localsColon name inputs outputs (readInput_code (shared_code hToks) inputs))
  | _ => exact Or.inr ⟨rfl, rfl⟩

theorem SameSource.same {ir : Ir} (hOwn : ∀ w ∈ ir.flatMap Line.defines, ¬ Reserved (IsNarrow r) w)
    (hToks : ∀ l ∈ ir, ∀ t ∈ lineToks l, Shared (IsNarrow r) t) : SameSource r α [] ir ir := by
  induction ir with
  | nil => exact .nil
  | cons l ir ih =>
    rw [List.flatMap_cons, List.forall_mem_append] at hOwn
    exact .form (sameForm_refl hOwn.1 (hToks l List.mem_cons_self))
      (ih hOwn.2 fun k hk => hToks k (List.mem_cons_of_mem _ hk))

theorem emitStorage_shared {symbol : String} {init access : List Tok} {name : String} {effect : EffectText}
    (hSymbol : Shared (IsNarrow r) (.symbol symbol)) (hAccess : ∀ t ∈ access, Shared (IsNarrow r) t) :
    ∀ l ∈ emitStorage symbol init name effect access, ∀ t ∈ lineToks l, Shared (IsNarrow r) t := by
  intro l hl t ht
  simp only [emitStorage, List.mem_cons, List.not_mem_nil, or_false] at hl
  obtain rfl | rfl | rfl := hl
  · cases ht
  · cases ht
  · simp only [lineToks, List.mem_cons] at ht
    obtain rfl | rfl | ht := ht
    · exact hSymbol
    · trivial
    · exact hAccess t ht

/-- A token of flat code that names no word of a narrow variable. -/
theorem flat_shared {code : List Tok} (hUses : ∀ w ∈ toksUserWords code, ∀ x, IsNarrow r x → w ≠ factorUserName x)
    (hFlat : ∀ t ∈ code, (∃ n, t = userTok n) ∨ Shared (IsNarrow r) t) :
    ∀ t ∈ code, Shared (IsNarrow r) t := by
  induction code with
  | nil =>
    intro t ht
    cases ht
  | cons t code ih =>
    rw [toksUserWords, List.forall_mem_append] at hUses
    rw [List.forall_mem_cons] at hFlat ⊢
    refine ⟨?_, ih hUses.2 hFlat.2⟩
    obtain ⟨n, rfl⟩ | hShared := hFlat.1
    · exact hUses.1 n List.mem_cons_self
    · exact hShared

theorem lineToks_uses (l : Line) : ∀ w ∈ toksUserWords (lineToks l), w ∈ Line.uses l := by
  intro w hw
  cases l with
  | colon | localsColon => exact hw
  | _ => cases hw

theorem class_flat (c : ClassDef) : ∀ l ∈ emitClass c r, ∀ t ∈ lineToks l,
    (∃ n, t = userTok n) ∨ Shared (IsNarrow r) t := by
  intro l hl t ht
  simp only [emitClass, List.mem_cons, List.mem_flatMap] at hl
  obtain rfl | rfl | ⟨s, -, hl⟩ := hl
  · cases ht
  · simp only [lineToks, List.mem_cons, List.not_mem_nil, or_false] at ht
    obtain rfl | rfl := ht
    · exact Or.inl ⟨_, rfl⟩
    · exact Or.inr trivial
  · simp only [emitSlotWords, List.mem_cons, List.not_mem_nil, or_false] at hl
    right
    obtain rfl | rfl | rfl := hl <;> simp only [lineToks, List.mem_cons, List.not_mem_nil, or_false] at ht
    · obtain rfl := ht
      trivial
    · obtain rfl := ht
      trivial
    · obtain rfl | rfl | rfl := ht <;> trivial

theorem wrapper_flat (n : String) (numIn numOut : Nat) : ∀ t ∈ lineToks (emitGenericWrapper n numIn numOut),
    (∃ n, t = userTok n) ∨ Shared (IsNarrow r) t := by
  have hNames (names : List String) : ∀ t ∈ nameToks names, Shared (IsNarrow r) t := by
    intro t ht
    obtain ⟨s, -, rfl⟩ := List.mem_map.1 ht
    trivial
  have hAux (kind : String) : ∀ t ∈ if 0 < numIn then nameToks (indexed "a" numIn) ++ [userTok (n ++ kind)] else [],
      (∃ n, t = userTok n) ∨ Shared (IsNarrow r) t := by
    intro t ht
    split at ht
    · obtain ht | ht := List.mem_append.1 ht
      · exact Or.inr (hNames _ t ht)
      · obtain rfl := List.mem_singleton.1 ht
        exact Or.inl ⟨_, rfl⟩
    · cases ht
  intro t ht
  simp only [lineToks, emitGenericWrapper, List.mem_append, List.mem_cons] at ht
  obtain (((ht | ht) | rfl | ht) | ht) | ht := ht
  · exact hAux _ t ht
  · exact Or.inr (hNames _ t ht)
  · exact Or.inl ⟨_, rfl⟩
  · obtain ⟨s, -, rfl⟩ := List.mem_map.1 ht
    exact Or.inr trivial
  · exact hAux _ t ht
  · exact Or.inr (hNames _ t ht)

theorem generic_flat (g : GenericDef) (aux : List String) : ∀ l ∈ emitGeneric g aux, ∀ t ∈ lineToks l,
    (∃ n, t = userTok n) ∨ Shared (IsNarrow r) t := by
  intro l hl t ht
  unfold emitGeneric at hl
  dsimp only at hl
  split at hl
  · simp only [List.mem_append, List.mem_cons, List.not_mem_nil, or_false] at hl
    obtain ((rfl | rfl | rfl) | hl) | rfl := hl
    · cases ht
    · cases ht
    · cases ht
    · split at hl
      · simp only [List.mem_cons, List.not_mem_nil, or_false] at hl
        obtain rfl | rfl := hl <;> cases ht
      · cases hl
    · exact wrapper_flat _ _ _ t ht
  · obtain rfl := List.mem_singleton.1 hl
    cases ht

theorem added_shared {aux : List String} {item : Item}
    (hCalls : ∀ w ∈ (Item.added r aux item).flatMap Line.uses, ∀ x, IsNarrow r x → w ≠ factorUserName x) :
    ∀ l ∈ Item.added r aux item, ∀ t ∈ lineToks l, Shared (IsNarrow r) t := by
  have hFlat : ∀ l ∈ Item.added r aux item, ∀ t ∈ lineToks l, (∃ n, t = userTok n) ∨ Shared (IsNarrow r) t := by
    cases item with
    | class_ c => exact class_flat c
    | generic g => exact generic_flat g aux
    | _ =>
      intro l hl
      cases hl
  intro l hl
  refine flat_shared (fun w hw => hCalls w ?_) (hFlat l hl)
  exact List.mem_flatMap.2 ⟨l, hl, lineToks_uses l w hw⟩

theorem does_shared (exprs : List Expr) : ∀ t ∈ emitDoesBody exprs, Shared (IsNarrow r) t := by
  intro t ht
  obtain ⟨e, -, rfl⟩ := List.mem_map.1 ht
  unfold emitDoesExpr emitDoesWord
  split
  · split
    · trivial
    · split <;> trivial
  · trivial
  · trivial
  · trivial

/-- What a program compiles its bodies under. -/
def BodiesApart (r : Sema) : Prop :=
  ∀ body ∈ r.program.items.flatMap Item.escapeBodies,
    (∀ u ∈ uses body, UseApart r u) ∧ ∀ l ∈ leaves body, TickApart r l

theorem KeepsVariables.bodies {helper : Nat} (h : KeepsVariables r helper)
    (hEscape : r.escape = analyseEscape r.program.items) : BodiesApart r := by
  refine fun body hBody => ⟨fun u hu => ?_, h.ticks body hBody⟩
  have hUse : u ∈ programUses r.program.items := List.mem_flatMap.2 ⟨body, hBody, hu⟩
  unfold UseApart
  split
  · rename_i hNarrow
    have hConfined : u.confined = true := by
      unfold IsNarrow at hNarrow
      rw [hEscape] at hNarrow
      exact narrow_confined hNarrow hUse rfl
    unfold Use.confined at hConfined
    split at hConfined
    · rename_i sink span hNext
      obtain ⟨t, hSink, hTarget⟩ := h.sink u hUse hNarrow sink span hNext
      exact ⟨h.word u hUse hNarrow, sink, span, t, hNext, hSink, hTarget⟩
    · cases hConfined
  · rename_i hOther
    exact h.other u hUse hOther

section Items
variable {helper : Nat} (h : KeepsVariables r helper) (hBodies : BodiesApart r)
include h hBodies

theorem declaration_source {item : Item} (hItem : item ∈ r.program.items) :
    SameSource r α (narrowName r item) (Item.declaration r (auxGenerics r.program.items) item)
      (Item.declaration (widened r) (auxGenerics r.program.items) item) := by
  have hOwn (hName : narrowName r item = []) :
      ∀ w ∈ (Item.declaration r (auxGenerics r.program.items) item).flatMap Line.defines,
        ¬ Reserved (IsNarrow r) w := by
    intro w hw
    refine h.defines item hItem hName w ?_
    rw [Item.lines, List.flatMap_append, List.flatMap_append]
    exact List.mem_append_left _ (List.mem_append_left _ hw)
  have hAdded := added_shared (h.calls item hItem)
  cases item with
  | «variable» v =>
    by_cases hNarrow : IsNarrow r (lower v.name)
    · have hName : narrowName r (.variable v) = [lower v.name] := if_pos hNarrow
      have hSource : Item.declaration r (auxGenerics r.program.items) (.variable v) =
          [.symbol (mangled v.name), .exec [.int 0, .symbol (mangled v.name), setGlobal]] := if_pos hNarrow
      have hWide : Item.declaration (widened r) (auxGenerics r.program.items) (.variable v) =
          emitStorage (hiddenName (lower v.name)) [.name "<variable>"] (mangled v.name) ⟨[], ["addr"]⟩ [] :=
        if_neg (widened_wide r _)
      rw [hName, hSource, hWide]
      exact .variable_ hNarrow .nil
    · have hName : narrowName r (.variable v) = [] := if_neg hNarrow
      have hSource : Item.declaration r (auxGenerics r.program.items) (.variable v) =
          emitStorage (hiddenName (lower v.name)) [.name "<variable>"] (mangled v.name) ⟨[], ["addr"]⟩ [] :=
        if_neg hNarrow
      have hWide : Item.declaration (widened r) (auxGenerics r.program.items) (.variable v) =
          Item.declaration r (auxGenerics r.program.items) (.variable v) := by
        rw [hSource]
        exact if_neg (widened_wide r _)
      rw [hName, hWide]
      refine .same (hOwn hName) ?_
      rw [hSource]
      refine emitStorage_shared ?_ fun t ht => by cases ht
      exact hOwn hName _ (by rw [hSource]; exact List.mem_cons_self)
  | constant c =>
    cases hValue : c.value with
    | computed exprs =>
      have hBody := hBodies exprs (List.mem_flatMap.2 ⟨_, hItem, by simp [Item.escapeBodies, hValue]⟩)
      have hLine (s : Sema) : Item.declaration s (auxGenerics r.program.items) (.constant c) =
          [.colon (mangled c.name) ⟨[], [if c.flavour = .float then "f" else "n"]⟩ (emitExprs s exprs) true] := by
        show [emitConstant c s] = _
        unfold emitConstant
        rw [hValue]
      rw [hLine, hLine]
      rw [hLine] at hOwn
      exact .form ⟨rfl, fun w hw => hOwn rfl w (List.mem_append_left _ hw),
        Or.inl (.colon _ _ _ (emitExprs_code α exprs hBody.1 hBody.2))⟩ .nil
    | int value | float value =>
      have hLine (s : Sema) : Item.declaration s (auxGenerics r.program.items) (.constant c) =
          Item.declaration r (auxGenerics r.program.items) (.constant c) := by
        show [emitConstant c s] = [emitConstant c r]
        unfold emitConstant
        rw [hValue]
      rw [hLine (widened r)]
      refine .same (hOwn rfl) fun l hl t ht => ?_
      obtain rfl := List.mem_singleton.1 hl
      unfold emitConstant at ht
      rw [hValue] at ht
      cases ht
  | create c =>
    exact .same (hOwn rfl) (emitStorage_shared (storage_shared (by decide) _) fun t ht => by cases ht)
  | collection c =>
    refine .same (hOwn rfl) (emitStorage_shared (storage_shared (by decide) _) fun t ht => ?_)
    simp only [List.mem_cons, List.not_mem_nil, or_false] at ht
    obtain rfl | rfl | rfl | rfl := ht <;> trivial
  | templateInstance t => exact .same (hOwn rfl) (emitStorage_shared (storage_shared (by decide) _) (does_shared _))
  | value v =>
    refine .same (hOwn rfl) fun l hl t ht => ?_
    simp only [Item.declaration, emitValueDecl, List.mem_cons, List.not_mem_nil, or_false] at hl
    obtain rfl | rfl := hl
    · cases ht
    · simp only [lineToks, List.mem_cons, List.not_mem_nil, or_false] at ht
      obtain rfl | rfl := ht
      · exact storage_shared (by decide) _
      · trivial
  | class_ c => exact .same (hOwn rfl) hAdded
  | generic g => exact .same (hOwn rfl) hAdded
  | rawFactor raw =>
    refine .same (hOwn rfl) fun l hl t ht => ?_
    obtain rfl := List.mem_singleton.1 hl
    cases ht
  | _ => exact .nil

omit h in
theorem method_source {m : MethodDef} (hItem : .method m ∈ r.program.items) (aux : List String) (n : Nat)
    (hOwn : ∀ w ∈ (emitMethod m r aux n).1.flatMap Line.defines, ¬ Reserved (IsNarrow r) w) :
    SameSource r α [] (emitMethod m r aux n).1 (emitMethod m (widened r) aux n).1 ∧
      (emitMethod m (widened r) aux n).2 = (emitMethod m r aux n).2 := by
  have hBody := hBodies m.body (List.mem_flatMap.2 ⟨_, hItem, List.mem_cons_self⟩)
  have hCode := emitBody_code (α := α) hBody.1 hBody.2
  have hMethod (code code' : List Tok) : SameForm r α (.method (methodTarget m aux) (emitSpecializerList m) code)
      (.method (methodTarget m aux) (emitSpecializerList m) code') :=
    ⟨rfl, (fun w hw => by cases hw), Or.inr ⟨rfl, rfl⟩⟩
  unfold emitMethod at hOwn ⊢
  split
  · rename_i hHelper
    rw [if_pos hHelper] at hOwn
    refine ⟨.form ⟨rfl, fun w hw => hOwn w (List.mem_append_left _ hw), Or.inl ?_⟩ (.form (hMethod _ _) .nil), rfl⟩
    exact .localsColon _ _ _ (readInput_code hCode _)
  · exact ⟨.form (hMethod _ _) .nil, rfl⟩

omit h in
theorem methods_source (aux : List String) : ∀ (items : List Item), (∀ item ∈ items, item ∈ r.program.items) →
    ∀ n, (∀ w ∈ (emitMethods r aux items n).1.flatMap Line.defines, ¬ Reserved (IsNarrow r) w) →
    SameSource r α [] (emitMethods r aux items n).1 (emitMethods (widened r) aux items n).1 := by
  intro items
  induction items with
  | nil => exact fun _ _ _ => .nil
  | cons item items ih =>
    intro hItems n hOwn
    have hRest := fun item hItem => hItems item (List.mem_cons_of_mem _ hItem)
    cases item with
    | method m =>
      rw [emitMethods_method, List.flatMap_append, List.forall_mem_append] at hOwn
      obtain ⟨hSource, hNumber⟩ := method_source hBodies (α := α) (hItems _ List.mem_cons_self) aux n hOwn.1
      rw [emitMethods_method, emitMethods_method, hNumber]
      exact hSource.append (ih hRest _ hOwn.2)
    | _ => exact ih hRest n hOwn

theorem definition_source {d : Definition} (hItem : .definition d ∈ r.program.items) :
    SameForm r α (emitDefinition d r) (emitDefinition d (widened r)) := by
  have hBody := hBodies d.body (List.mem_flatMap.2 ⟨_, hItem, List.mem_cons_self⟩)
  have hCode := emitBody_code (α := α) hBody.1 hBody.2
  have hOwn : ∀ w ∈ Line.defines (emitDefinition d r), ¬ Reserved (IsNarrow r) w := by
    intro w hw
    refine h.defines _ hItem rfl w (List.mem_flatMap.2 ⟨_, ?_, hw⟩)
    exact List.mem_append_left _ (List.mem_append_right _ List.mem_cons_self)
  have hLines : (narrowing (IsNarrow r) α).Lines (emitDefinition d r) (emitDefinition d (widened r)) := by
    have hEffects : (widened r).bodyEffects = r.bodyEffects := rfl
    unfold emitDefinition
    dsimp only
    rw [hEffects]
    split
    · exact .localsColon _ _ _ (readInput_code hCode _)
    · split
      · split
        · refine .localsColon _ _ _ (readInput_code (.append (shared_code fun t ht => ?_) hCode) _)
          obtain ⟨s, -, rfl⟩ := List.mem_map.1 ht
          trivial
        · exact .localsColon _ _ _ (readInput_code hCode _)
      · exact .colon _ _ _ hCode
  exact ⟨lines_defines hLines, hOwn, Or.inl hLines⟩

theorem colonWord_source {item : Item} (hItem : item ∈ r.program.items) :
    SameSource r α [] (Item.colonWord r item) (Item.colonWord (widened r) item) := by
  cases item with
  | definition d => exact .form (definition_source h hBodies hItem) .nil
  | _ => exact .nil

omit h hBodies in
theorem form_plain {l l' : Line} (hDefines : Line.defines l = [] ∧ Line.defines l' = [])
    (hColon : Pairing.isColon l = false ∧ Pairing.isColon l' = false) : SameSource r α [] [l] [l'] := by
  refine .form ⟨by rw [hDefines.1, hDefines.2], fun w hw => ?_, Or.inr hColon⟩ .nil
  rw [hDefines.1] at hw
  cases hw

omit h hBodies in
theorem execution_source (item : Item) :
    SameSource r α [] (Item.execution r item) (Item.execution (widened r) item) := by
  cases item with
  | topLevel | value => exact form_plain ⟨rfl, rfl⟩ ⟨rfl, rfl⟩
  | _ => exact .nil

/-- The two sources differ in the narrow variables only. -/
theorem emit_source : SameSource r α (r.program.items.flatMap (narrowName r)) (emit r true helper).1
    (emit (widened r) true helper).1 := by
  have hHead : SameSource r α [] [.using_ (vocabsNeeded r), .inScratchpad]
      [.using_ (vocabsNeeded (widened r)), .inScratchpad] :=
    (form_plain ⟨rfl, rfl⟩ ⟨rfl, rfl⟩).append (form_plain ⟨rfl, rfl⟩ ⟨rfl, rfl⟩)
  have hDeclarations := SameSource.flatMap fun item hItem => declaration_source (α := α) h hBodies hItem
  have hMethods := methods_source (α := α) hBodies (auxGenerics r.program.items) r.program.items
    (fun _ hItem => hItem) helper h.helpers
  have hWords := SameSource.flatMap fun item hItem => colonWord_source (α := α) h hBodies hItem
  have hRuns : SameSource r α (r.program.items.flatMap fun _ => []) (r.program.items.flatMap (Item.execution r))
      (r.program.items.flatMap (Item.execution (widened r))) := .flatMap fun item _ => execution_source item
  have hEnd : SameSource r α [] [.flush] [.flush] := form_plain ⟨rfl, rfl⟩ ⟨rfl, rfl⟩
  have hAll := ((((hHead.append hDeclarations).append hMethods).append hWords).append hRuns).append hEnd
  have hNil : r.program.items.flatMap (fun _ => ([] : List String)) = [] := List.flatMap_eq_nil_iff.2 fun _ _ => rfl
  rw [hNil, List.nil_append, List.append_nil, List.append_nil, List.append_nil, List.append_nil] at hAll
  exact hAll

end Items
end Program

/-! The runs of a program. -/

/-- The forms of a source that run as it is loaded. -/
def runLines {Obj World : Type} (V : Vm Obj World) : Ir → Command Obj World PUnit
  | [] => pure ⟨⟩
  | .exec code :: lines => do
    run V code
    runLines V lines
  | _ :: lines => runLines V lines

/-- The last pass of a program's source, its top-level code and the starts of its VALUEs, with the words of the
source loaded. -/
def loadTime {Obj World : Type} (V : Vm Obj World) (r : Sema) (helper : Nat) : Command Obj World PUnit :=
  Cmd.lim fun k => runLines (V.link (currentDef (emit r true helper).1) k)
    (r.program.items.flatMap (Item.execution r))

section Runs
variable {Obj Obj' World World' : Type} {P : Pairing Obj Obj'} {W : World → World' → Prop}
  {V : Vm Obj World} {V' : Vm Obj' World'}

/-- Forms that run the like code. -/
def RunAlike (P : Pairing Obj Obj') (l l' : Line) : Prop := ∃ p q, l = .exec p ∧ l' = .exec q ∧ P.Code p q

theorem RunAlike.flip {lines lines' : Ir} (h : List.Forall₂ (RunAlike P) lines lines') :
    List.Forall₂ (RunAlike P.flip) lines' lines := by
  refine List.Forall₂.flip (h.imp ?_)
  rintro l l' ⟨p, q, hl, hl', hCode⟩
  exact ⟨q, p, hl', hl, hCode.flip⟩

theorem runLines_simulates (h : P.Hidden W V V') (hAccess : P.Exchanges W V V') {lines lines' : Ir}
    (hLines : List.Forall₂ (RunAlike P) lines lines') :
    Cmd.Simulates (P.States W) Eq (runLines V lines) (runLines V' lines') := by
  induction hLines with
  | nil => exact .pure rfl
  | cons hLine _ ih =>
    obtain ⟨p, q, rfl, rfl, hCode⟩ := hLine
    rw [runLines, runLines]
    exact .bind (Pairing.run_simulates h hAccess hCode) fun _ _ _ => ih

end Runs

variable {α ω : Type}

theorem executions_alike {r : Sema} (hBodies : BodiesApart r) :
    List.Forall₂ (RunAlike (narrowing (IsNarrow r) α)) (r.program.items.flatMap (Item.execution r))
      (r.program.items.flatMap (Item.execution (widened r))) := by
  have hItem : ∀ item ∈ r.program.items, List.Forall₂ (RunAlike (narrowing (IsNarrow r) α))
      (Item.execution r item) (Item.execution (widened r) item) := by
    intro item hItem
    cases item with
    | topLevel exprs span =>
      have hBody := hBodies exprs (List.mem_flatMap.2 ⟨_, hItem, List.mem_cons_self⟩)
      exact .cons ⟨_, _, rfl, rfl, emitExprs_code α exprs hBody.1 hBody.2⟩ .nil
    | value v =>
      have hBody := hBodies v.initial (List.mem_flatMap.2 ⟨_, hItem, List.mem_cons_self⟩)
      have hSeed : (narrowing (IsNarrow r) α).Code [.symbol (valueStorageName (lower v.name)), setGlobal]
          [.symbol (valueStorageName (lower v.name)), setGlobal] :=
        .plain (storage_shared List.mem_cons_self _) (.plain trivial .nil)
      exact .cons ⟨_, _, rfl, rfl, (emitExprs_code α v.initial hBody.1 hBody.2).append hSeed⟩ .nil
    | _ => exact .nil
  generalize r.program.items = items at hItem
  induction items with
  | nil => exact .nil
  | cons item items ih =>
    rw [List.flatMap_cons, List.flatMap_cons]
    exact List.rel_append (hItem item List.mem_cons_self)
      (ih fun item hMem => hItem item (List.mem_cons_of_mem _ hMem))

/-- Two machines that the variables of `N` are no business of. -/
structure Unaware (N : String → Prop) (ρ : ω → ω → Prop) (B B' : Vm (Thing α) (Storage α ω)) : Prop where
  forth : (narrowing N α).Hidden (SameCells N ρ) B B'
  back : (narrowing N α).flip.Hidden (fun w' w => SameCells N ρ w w') B' B
  sums : SumsApart B

theorem symbol_obj {N : String → Prop} {s : String} (h : (narrowing N α).plain (.symbol s)) :
    (narrowing N α).obj (.symbol s) (.symbol s) := by
  refine ⟨rfl, fun t ht => ?_, fun x hx => ?_⟩
  · cases ht
    exact h
  · cases hx

/-- A build analyses the program it hands on. -/
theorem build_escape {source : Program} {prior : PriorState} {synth synth' : Nat} {r : Sema}
    (h : buildWithPriorState source prior synth = (.ok r, synth')) :
    r.escape = analyseEscape r.program.items := by
  obtain ⟨words, targets, -, -, rfl⟩ := build_ok h
  rfl

theorem narrow_declared {r : Sema} (hEscape : r.escape = analyseEscape r.program.items) {x : String}
    (hx : IsNarrow r x) : x ∈ r.program.items.flatMap (narrowName r) := by
  have hName : x ∈ variableNames r.program.items := by
    have hLookup : (analyseEscape r.program.items).lookup x = some .narrow := hEscape ▸ hx
    rw [analyseEscape_exact] at hLookup
    split at hLookup
    · assumption
    · cases hLookup
  obtain ⟨item, hItem, hSome⟩ := List.mem_filterMap.1 hName
  split at hSome
  · rename_i v
    obtain rfl := Option.some.inj hSome
    exact List.mem_flatMap.2 ⟨_, hItem, by rw [narrowName, if_pos hx]; exact List.mem_cons_self⟩
  · cases hSome

/-- A program that keeps a variable in a global of its own where the analysis allows it, against the same program
with every variable behind its address. Whatever the one does as it is loaded, in states that hold the same
numbers for the variables, the other does the like, as long as the first stores in its variables only numbers
that fit into a cell. -/
theorem narrow_agrees {r : Sema} {helper : Nat} (h : KeepsVariables r helper)
    (hEscape : r.escape = analyseEscape r.program.items) {ρ : ω → ω → Prop} {B B' : Vm (Thing α) (Storage α ω)}
    (hB : Unaware (IsNarrow r) ρ B B') :
    Cmd.Simulates ((narrowing (IsNarrow r) α).States (SameCells (IsNarrow r) ρ)) Eq
        (loadTime (B.withStorage (cellsOnly (IsNarrow r))) r helper)
        (loadTime (B'.withStorage anything) (widened r) helper) ∧
      Cmd.Simulates ((narrowing (IsNarrow r) α).flip.States fun w' w => SameCells (IsNarrow r) ρ w w') Eq
        (loadTime (B'.withStorage (cellsOnly (IsNarrow r))) (widened r) helper)
        (loadTime (B.withStorage anything) r helper) := by
  have hBodies := h.bodies hEscape
  have hSource := emit_source (α := α) h hBodies
  have hRuns := executions_alike (α := α) hBodies
  have hAddresses : HasAddresses (IsNarrow r) (currentDef (emit (widened r) true helper).1) := by
    intro x hx
    rw [hSource.address h.apart hx, if_pos (narrow_declared hEscape hx)]
  constructor
  · rintro s t hs out ⟨k, hRun⟩
    have hAccess := narrow_exchanges ρ B' (currentDef (emit r true helper).1) hB.sums hAddresses h.apart
    have hHidden := Pairing.link_hidden (stored_narrowing.hidden hB.forth (fun s => symbol_obj) _) hSource.defs 1
      hAccess k
    obtain ⟨out', hOut, hLike⟩ := runLines_simulates hHidden (hAccess k) hRuns s t hs out hRun
    exact ⟨out', ⟨k + 1, hOut⟩, hLike⟩
  · refine .lim fun k => ?_
    have hAccess := wide_exchanges ρ B B' (currentDef (emit r true helper).1) hAddresses h.apart
    have hHidden := Pairing.link_hidden (stored_narrowing.flip.hidden hB.back (fun s => symbol_obj) _)
      hSource.defs.flip 0 hAccess k
    exact runLines_simulates hHidden (hAccess k) (RunAlike.flip hRuns)

/-! A program with one variable, which is narrow, on a machine that has nothing but variables. -/

def place (n : Nat) : Span := .point ⟨n, 1, n⟩

def counterItems : List Item :=
  [.variable ⟨"x", place 1, place 1⟩,
    .topLevel [.lit (.int 5 (place 2)), .wordRef "x" (place 3), .wordRef "!" (place 4),
      .lit (.int 3 (place 5)), .wordRef "x" (place 6), .wordRef "+!" (place 7),
      .wordRef "x" (place 8), .wordRef "@" (place 9)] (place 2)]

def counter : Sema where
  program := ⟨counterItems⟩
  wordTargets := [(place 3, .userDefined (mangled "x")), (place 4, .qualifiedBuiltin "forth.runtime" "nf-!"),
    (place 6, .userDefined (mangled "x")), (place 7, .qualifiedBuiltin "forth.runtime" "nf-+!"),
    (place 8, .userDefined (mangled "x")), (place 9, .qualifiedBuiltin "forth.runtime" "@")]
  userWords := []
  templates := []
  values := []
  classSlots := []
  userEffects := []
  bodyEffects := []
  effectErrors := []
  escape := analyseEscape counterItems
  docs := []

def bareMachine : Vm (Thing Unit) (Storage Unit Unit) where
  word _ _ _ := False
  name _ _ _ := False
  letForm _ _ _ := False
  symbol := .symbol
  str _ := .other ()
  float _ := .other ()
  isZero _ := false
  same _ _ := false

theorem bareMachine_hidden {P : Pairing (Thing Unit) (Thing Unit)} {W : Storage Unit Unit → Storage Unit Unit → Prop}
    (hQuot : ∀ q, ¬ P.plain (.quot q)) (hPrim : ∀ p, P.plain (.prim p))
    (hSymbol : ∀ s, P.plain (.symbol s) → P.obj (.symbol s) (.symbol s)) (hOther : P.obj (.other ()) (.other ())) :
    P.Hidden W bareMachine bareMachine where
  quot := hQuot
  prim := hPrim
  word _ _ _ _ _ _ h := h.elim
  name _ _ _ _ _ _ h := h.elim
  letForm _ _ _ _ _ _ h := h.elim
  symbol := hSymbol
  str _ := hOther
  float _ := hOther
  zero _ _ h := by cases h <;> rfl
  equal _ _ _ _ h h' := by cases h <;> cases h' <;> rfl

theorem bareMachine_unaware (N : String → Prop) : Unaware N Eq bareMachine bareMachine := by
  have hOther : (narrowing N Unit).obj (.other ()) (.other ()) :=
    ⟨rfl, (fun s hs => by cases hs), fun x hx => by cases hx⟩
  exact ⟨bareMachine_hidden (fun _ h => h) (fun _ => trivial) (fun _ => symbol_obj) hOther,
    bareMachine_hidden (fun _ h => h) (fun _ => trivial) (fun _ => symbol_obj) hOther,
    fun _ _ _ _ _ _ _ _ h => h.elim⟩

theorem counter_escape : counter.escape = analyseEscape counter.program.items := by
  simp only [counter]

theorem counter_narrow {x : String} : IsNarrow counter x ↔ x = "x" := by
  have hEscape : counter.escape = [("x", .narrow)] := by decide +kernel
  unfold IsNarrow
  rw [hEscape, List.lookup_cons]
  cases hEq : x == "x" with
  | true => exact ⟨fun _ => eq_of_beq hEq, fun _ => rfl⟩
  | false =>
    constructor
    · intro h
      cases h
    · rintro rfl
      cases hEq

theorem counter_uses : programUses counter.program.items =
    [⟨"x", place 3, some (.wordRef "!" (place 4))⟩, ⟨"!", place 4, some (.lit (.int 3 (place 5)))⟩,
      ⟨"x", place 6, some (.wordRef "+!" (place 7))⟩, ⟨"+!", place 7, some (.wordRef "x" (place 8))⟩,
      ⟨"x", place 8, some (.wordRef "@" (place 9))⟩, ⟨"@", place 9, none⟩] := rfl

theorem counter_bodies : counter.program.items.flatMap Item.escapeBodies =
    [[.lit (.int 5 (place 2)), .wordRef "x" (place 3), .wordRef "!" (place 4), .lit (.int 3 (place 5)),
      .wordRef "x" (place 6), .wordRef "+!" (place 7), .wordRef "x" (place 8), .wordRef "@" (place 9)]] := rfl

theorem counter_sink {sink : String} (h : lower sink ≠ "x") : ¬ IsNarrow counter (lower sink) :=
  fun hNarrow => h (counter_narrow.1 hNarrow)

theorem counter_keeps : KeepsVariables counter 0 where
  apart x y hx hy _ := (counter_narrow.1 hx).trans (counter_narrow.1 hy).symm
  word := by
    rw [counter_uses]
    simp only [List.forall_mem_cons]
    refine ⟨fun _ => by decide +kernel, fun h => absurd h (counter_sink (by decide)), fun _ => by decide +kernel,
      fun h => absurd h (counter_sink (by decide)), fun _ => by decide +kernel,
      fun h => absurd h (counter_sink (by decide)), fun u hu => by cases hu⟩
  sink := by
    rw [counter_uses]
    intro u hu hNarrow sink span hNext
    simp only [List.mem_cons, List.not_mem_nil, or_false] at hu
    obtain rfl | rfl | rfl | rfl | rfl | rfl := hu
    · cases hNext
      exact ⟨.qualifiedBuiltin "forth.runtime" "nf-!", by decide +kernel, by decide +kernel⟩
    · cases hNext
    · cases hNext
      exact ⟨.qualifiedBuiltin "forth.runtime" "nf-+!", by decide +kernel, by decide +kernel⟩
    · exact absurd hNarrow (counter_sink (by decide))
    · cases hNext
      exact ⟨.qualifiedBuiltin "forth.runtime" "@", by decide +kernel, by decide +kernel⟩
    · cases hNext
  other := by
    rw [counter_uses]
    intro u hu hOther
    simp only [List.mem_cons, List.not_mem_nil, or_false] at hu
    have hx : IsNarrow counter (lower "x") := counter_narrow.2 (by decide)
    obtain rfl | rfl | rfl | rfl | rfl | rfl := hu
    · exact absurd hx hOther
    · trivial
    · exact absurd hx hOther
    · trivial
    · exact absurd hx hOther
    · trivial
  ticks := by
    rw [counter_bodies]
    intro body hBody l hl
    obtain rfl := List.mem_singleton.1 hBody
    simp only [leaves, exprLeaves, List.mem_append, List.mem_cons, List.not_mem_nil, or_false] at hl
    obtain rfl | rfl | rfl | rfl | rfl | rfl | rfl | rfl := hl <;> trivial
  calls item hItem w hw := by
    have hNone : Item.added counter (auxGenerics counter.program.items) item = [] := by
      simp only [counter, counterItems, List.mem_cons, List.not_mem_nil, or_false] at hItem
      obtain rfl | rfl := hItem <;> rfl
    rw [hNone] at hw
    cases hw
  defines item hItem hName w hw := by
    simp only [counter, counterItems, List.mem_cons, List.not_mem_nil, or_false] at hItem
    obtain rfl | rfl := hItem
    · cases hName
    · cases hw
  helpers w hw := by cases hw

theorem narrow_agrees_counter :
    Cmd.Simulates ((narrowing (IsNarrow counter) Unit).States (SameCells (IsNarrow counter) Eq)) Eq
        (loadTime (bareMachine.withStorage (cellsOnly (IsNarrow counter))) counter 0)
        (loadTime (bareMachine.withStorage anything) (widened counter) 0) ∧
      Cmd.Simulates ((narrowing (IsNarrow counter) Unit).flip.States fun w' w => SameCells (IsNarrow counter) Eq w w')
        Eq (loadTime (bareMachine.withStorage (cellsOnly (IsNarrow counter))) (widened counter) 0)
        (loadTime (bareMachine.withStorage anything) counter 0) :=
  narrow_agrees counter_keeps counter_escape (bareMachine_unaware _)

end FactorForth.Correctness
