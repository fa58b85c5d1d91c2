import FactorForth.Compiler.Occurrences

/-! What the escape analysis of variables finds: the references of a program with the expression behind each
of them, and the first reference of a name that no sink follows. -/

namespace FactorForth.Correctness
open FactorForth.Library FactorForth.Compiler

/-- A reference, and the expression behind it in the same block. -/
structure Use where
  name : String
  span : Span
  next : Option Expr

/-- A sink follows directly. -/
def Use.confined (u : Use) : Bool :=
  match u.next with
  | some (.wordRef next _) => isNarrowSink next
  | _ => false

def ownUse (e : Expr) (es : List Expr) : List Use :=
  match e with
  | .wordRef name span => [⟨name, span, es.head?⟩]
  | _ => []

mutual
def exprUses : Expr → List Use
  | .ifElse thenBody none _ => uses thenBody
  | .ifElse thenBody (some elseBody) _ => uses thenBody ++ uses elseBody
  | .beginUntil body _ => uses body
  | .beginAgain body _ => uses body
  | .doLoop _ body _ _ => uses body
  | .beginWhileRepeat pred body _ => uses pred ++ uses body
  | .caseOf arms none _ => armsUses arms
  | .caseOf arms (some default) _ => armsUses arms ++ uses default
  | _ => []

def armsUses : List (CaseArm Expr) → List Use
  | [] => []
  | ⟨matchExpr, body, _⟩ :: arms => uses matchExpr ++ uses body ++ armsUses arms

/-- The references of a block in source order. -/
def uses : List Expr → List Use
  | [] => []
  | e :: es => exprUses e ++ ownUse e es ++ uses es
end

/-- The references of a program. -/
def programUses (items : List Item) : List Use := (items.flatMap Item.escapeBodies).flatMap uses

def escapeUse (varNames : List String) (esc : Dict String EscapeState) (u : Use) : Dict String EscapeState :=
  if varNames.contains (lower u.name) && !u.confined then markEscape esc (lower u.name) u.span else esc

section Walk
variable (varNames : List String)

theorem blockEscape_cons (e : Expr) (es : List Expr) (esc : Dict String EscapeState) :
    blockEscape varNames (e :: es) esc =
      blockEscape varNames es ((ownUse e es).foldl (escapeUse varNames) (exprEscape varNames e esc)) := by
  cases e with
  | wordRef name span =>
    rw [ownUse, List.foldl_cons, List.foldl_nil, escapeUse]
    cases es with
    | nil => simp [blockEscape, Use.confined]
    | cons next es =>
      cases next with
      | wordRef => rfl
      | _ => simp [blockEscape, Use.confined]
  | _ => rfl

mutual
theorem exprEscape_uses : ∀ (e : Expr) (esc : Dict String EscapeState),
    exprEscape varNames e esc = (exprUses e).foldl (escapeUse varNames) esc
  | .ifElse thenBody none _, esc => blockEscape_uses thenBody esc
  | .ifElse thenBody (some elseBody) _, esc => by
    rw [exprEscape, exprUses, List.foldl_append, blockEscape_uses thenBody, blockEscape_uses elseBody]
  | .beginUntil body _, esc => blockEscape_uses body esc
  | .beginAgain body _, esc => blockEscape_uses body esc
  | .doLoop _ body _ _, esc => blockEscape_uses body esc
  | .beginWhileRepeat pred body _, esc => by
    rw [exprEscape, exprUses, List.foldl_append, blockEscape_uses pred, blockEscape_uses body]
  | .caseOf arms none _, esc => armsEscape_uses arms esc
  | .caseOf arms (some default) _, esc => by
    rw [exprEscape, exprUses, List.foldl_append, armsEscape_uses arms, blockEscape_uses default]
  | .lit _, _ | .wordRef _ _, _ | .tick _ _, _ | .toValue _ _, _ | .see _ _, _ | .letForm _ _, _
  | .locals _ _, _ => rfl

theorem armsEscape_uses : ∀ (arms : List (CaseArm Expr)) (esc : Dict String EscapeState),
    armsEscape varNames arms esc = (armsUses arms).foldl (escapeUse varNames) esc
  | [], _ => rfl
  | ⟨matchExpr, body, _⟩ :: arms, esc => by
    rw [armsEscape, armsUses, List.foldl_append, List.foldl_append, blockEscape_uses matchExpr,
      blockEscape_uses body, armsEscape_uses arms]

/-- The walk over a block marks its references one after the other. -/
theorem blockEscape_uses : ∀ (es : List Expr) (esc : Dict String EscapeState),
    blockEscape varNames es esc = (uses es).foldl (escapeUse varNames) esc
  | [], _ => rfl
  | e :: es, esc => by
    rw [uses, List.foldl_append, List.foldl_append, ← exprEscape_uses e, ← blockEscape_uses es,
      blockEscape_cons]
end

end Walk

/-! The analysis. -/

/-- A name is wide from its first reference on that no sink follows, and else narrow. -/
def escapeOf (us : List Use) (x : String) : EscapeState :=
  (us.find? fun u => lower u.name == x && !u.confined).elim .narrow fun u => .wide .unknownSink u.span

section Fold
variable {varNames : List String} {x : String} {esc : Dict String EscapeState}

theorem escapeUse_other {u : Use} (h : (lower u.name == x && !u.confined) = false) :
    (escapeUse varNames esc u).lookup x = esc.lookup x := by
  unfold escapeUse
  split
  · rename_i hMarked
    rw [Bool.and_eq_true] at hMarked
    have hName : lower u.name ≠ x := by
      rintro rfl
      rw [beq_self_eq_true, Bool.true_and, hMarked.2] at h
      cases h
    unfold markEscape
    split
    · rfl
    · exact Dict.lookup_insert_ne _ _ hName
  · rfl

theorem escapes_wide (us : List Use) {reason : EscapeReason} {span : Span}
    (h : esc.lookup x = some (.wide reason span)) :
    (us.foldl (escapeUse varNames) esc).lookup x = some (.wide reason span) := by
  induction us generalizing esc with
  | nil => exact h
  | cons u us ih =>
    rw [List.foldl_cons]
    refine ih ?_
    cases hUse : lower u.name == x && !u.confined with
    | false => rw [escapeUse_other hUse, h]
    | true =>
      obtain rfl := eq_of_beq (Bool.and_eq_true_iff.1 hUse).1
      unfold escapeUse markEscape
      rw [h]
      split <;> exact h

theorem escapes_narrow (hVar : x ∈ varNames) (us : List Use) (h : esc.lookup x = some .narrow) :
    (us.foldl (escapeUse varNames) esc).lookup x = some (escapeOf us x) := by
  induction us generalizing esc with
  | nil => exact h
  | cons u us ih =>
    rw [List.foldl_cons]
    cases hUse : lower u.name == x && !u.confined with
    | false =>
      rw [ih (by rw [escapeUse_other hUse, h]), escapeOf, escapeOf, List.find?_cons, hUse]
    | true =>
      have hFirst : escapeOf (u :: us) x = .wide .unknownSink u.span := by
        rw [escapeOf, List.find?_cons, hUse]
        rfl
      rw [hFirst]
      refine escapes_wide us ?_
      obtain ⟨hName, hEscapes⟩ := Bool.and_eq_true_iff.1 hUse
      obtain rfl := eq_of_beq hName
      have hContains : varNames.contains (lower u.name) = true := List.contains_iff_mem.mpr hVar
      unfold escapeUse markEscape
      rw [if_pos (by rw [hContains, hEscapes]; rfl), h]
      exact Dict.lookup_insert_self _ _ _

theorem start_narrow (names : List String) (esc : Dict String EscapeState) :
    (names.foldl (fun esc n => Dict.insert esc n .narrow) esc).lookup x =
      if x ∈ names then some .narrow else esc.lookup x := by
  induction names generalizing esc with
  | nil => rw [if_neg List.not_mem_nil, List.foldl_nil]
  | cons n names ih =>
    rw [List.foldl_cons, ih, Dict.lookup_insert]
    by_cases hMem : x ∈ names
    · rw [if_pos hMem, if_pos (List.mem_cons_of_mem _ hMem)]
    · rw [if_neg hMem]
      by_cases hName : n = x
      · rw [if_pos hName, if_pos (hName ▸ List.mem_cons_self)]
      · rw [if_neg hName, if_neg]
        rw [List.mem_cons, not_or]
        exact ⟨Ne.symm hName, hMem⟩

theorem escapes_none (hVar : x ∉ varNames) (us : List Use) :
    (us.foldl (escapeUse varNames) esc).lookup x = esc.lookup x := by
  induction us generalizing esc with
  | nil => rfl
  | cons u us ih =>
    rw [List.foldl_cons, ih]
    unfold escapeUse
    split
    · rename_i hMarked
      have hName : lower u.name ≠ x := by
        rintro rfl
        exact hVar (List.contains_iff_mem.mp (Bool.and_eq_true_iff.1 hMarked).1)
      unfold markEscape
      split
      · rfl
      · exact Dict.lookup_insert_ne _ _ hName
    · rfl

end Fold

/-- The names of the variables of a program. -/
def variableNames (items : List Item) : List String :=
  items.filterMap fun
    | .variable v => some (lower v.name)
    | _ => none

/-- The analysis is exact: a variable is narrow when each of its references, in any nest of any body of the
program, stands directly before a sink, and otherwise wide from the first that does not; nothing else has
an entry. -/
theorem analyseEscape_exact (items : List Item) (x : String) :
    (analyseEscape items).lookup x =
      if x ∈ variableNames items then some (escapeOf (programUses items) x) else none := by
  have hWalk (bodies : List (List Expr)) (esc : Dict String EscapeState) :
      bodies.foldl (fun esc body => blockEscape (variableNames items) body esc) esc =
        (bodies.flatMap uses).foldl (escapeUse (variableNames items)) esc := by
    induction bodies generalizing esc with
    | nil => rfl
    | cons body bodies ih =>
      rw [List.foldl_cons, ih, blockEscape_uses, List.flatMap_cons, List.foldl_append]
  have hStart := start_narrow (x := x) (variableNames items) []
  show ((items.flatMap Item.escapeBodies).foldl
    (fun esc body => blockEscape (variableNames items) body esc) _).lookup x = _
  rw [hWalk]
  by_cases hVar : x ∈ variableNames items
  · rw [if_pos hVar] at hStart ⊢
    exact escapes_narrow hVar _ hStart
  · rw [if_neg hVar] at hStart ⊢
    rw [escapes_none hVar]
    exact hStart

/-- Behind a narrow variable there is always a sink. -/
theorem narrow_confined {items : List Item} {x : String}
    (h : (analyseEscape items).lookup x = some .narrow) {u : Use} (hUse : u ∈ programUses items)
    (hName : lower u.name = x) : u.confined = true := by
  rw [analyseEscape_exact] at h
  split at h
  · unfold escapeOf at h
    cases hFind : (programUses items).find? fun u => lower u.name == x && !u.confined with
    | some u =>
      rw [hFind] at h
      cases h
    | none =>
      have hNot := List.find?_eq_none.1 hFind u hUse
      rw [hName, beq_self_eq_true, Bool.true_and, Bool.not_eq_true', Bool.not_eq_false] at hNot
      exact hNot
  · cases h

end FactorForth.Correctness
