import FactorForth.Semantics.Factor
import FactorForth.Compiler.Occurrences

/-! The words of a program: what the defining forms of the emitted source make of their words, which call
one another. -/

namespace FactorForth.Semantics
open FactorForth.Library FactorForth.Compiler
variable {Obj World : Type}

/-- The inputs of a `::` are bound from the top of the stack. -/
def bindInputs : List (Option String) → Command Obj World PUnit
  | [] => pure ⟨⟩
  | name :: names => do
    bindInputs names
    bindLocal name

/-- Text that stands as it is names a local where the header binds that name. -/
def readInput (inputs : List (Option String)) : Tok → Tok
  | .name s => if inputs.contains (some s) then .word (.local_ s) else .name s
  | tok => tok

/-- The code of a word that is defined by a colon form; the other forms are left to Factor. -/
def lineCode (V : Vm Obj World) : Line → Option (Command Obj World PUnit)
  | .colon _ _ body _ => some (run V body)
  | .localsColon _ inputs _ body =>
    some (bindInputs inputs >>= fun _ => run V (body.map (readInput inputs)))
  | _ => none

/-- A call starts without locals and leaves none behind. -/
def called (c : Command Obj World PUnit) (m m' : Machine Obj World) : Prop :=
  ∃ env, c ⟨m, []⟩ (.ok ⟨⟩ ⟨m', env⟩)

/-- A call that nests too deep does not come back. -/
def tooDeep (_ _ : Machine Obj World) : Prop := False

def Vm.withWords (V : Vm Obj World)
    (words : String → Option (Machine Obj World → Machine Obj World → Prop)) : Vm Obj World :=
  { V with
    word := fun t =>
      match t with
      | .userDefined n => (words n).getD (V.word t)
      | t => V.word t }

/-- The machine with the definitions of a program loaded, where calls of its words nest at most `k` deep. -/
def Vm.link (V : Vm Obj World) (defs : String → Option Line) : Nat → Vm Obj World
  | 0 => V.withWords fun n => ((defs n).bind (lineCode V)).map fun _ => tooDeep
  | k + 1 => V.withWords fun n => ((defs n).bind (lineCode (V.link defs k))).map called

section Link
variable (V : Vm Obj World) (defs : String → Option Line)

/-- Loading changes the words of the program only. -/
theorem link_reference (k : Nat) {t : Target} (ht : t.userWord? = none) :
    (V.link defs k).reference t = V.reference t := by
  cases t with
  | userDefined n => cases ht
  | _ => cases k <;> rfl

theorem link_letForm (k : Nat) : (V.link defs k).letForm = V.letForm := by
  cases k <;> rfl

theorem link_name (k : Nat) : (V.link defs k).name = V.name := by
  cases k <;> rfl

variable {V defs}

theorem link_word_succ {n : String} {l : Line} (hLine : defs n = some l) {k : Nat}
    {c : Command Obj World PUnit} (hCode : lineCode (V.link defs k) l = some c) :
    (V.link defs (k + 1)).word (.userDefined n) = called c := by
  show (((defs n).bind (lineCode (V.link defs k))).map called).getD _ = _
  rw [hLine, Option.bind_some, hCode]
  rfl

theorem link_word_zero {n : String} {l : Line} (hLine : defs n = some l)
    (hCode : (lineCode V l).isSome = true) :
    (V.link defs 0).word (.userDefined n) = tooDeep := by
  obtain ⟨c, hc⟩ := Option.isSome_iff_exists.1 hCode
  show (((defs n).bind (lineCode V)).map fun _ => tooDeep).getD _ = _
  rw [hLine, Option.bind_some, hc]
  rfl

end Link

/-! Code whose words are resolved has no text that stands as it is. -/

section Read
variable {r : Sema} (inputs : List (Option String))

/-- Every occurrence has a target. -/
def Targeted (r : Sema) (os : List (String × Span)) : Prop :=
  ∀ o ∈ os, (r.wordTargets.lookup o.2).isSome = true

theorem Targeted.left {xs ys : List (String × Span)} (h : Targeted r (xs ++ ys)) : Targeted r xs :=
  fun o ho => h o (List.mem_append_left _ ho)

theorem Targeted.right {xs ys : List (String × Span)} (h : Targeted r (xs ++ ys)) : Targeted r ys :=
  fun o ho => h o (List.mem_append_right _ ho)

theorem readInput_emitLiteral (l : Literal) :
    (emitLiteral l).map (readInput inputs) = emitLiteral l := by
  cases l with
  | str value kind span => cases kind <;> rfl
  | _ => rfl

theorem readInput_emitLocals (names : List LocalDecl) :
    (emitLocals names).map (readInput inputs) = emitLocals names := by
  rw [emitLocals, List.map_map]
  rfl

variable (hw : Wide r)
include hw

mutual
theorem readInput_emitExpr : ∀ e : Expr, Targeted r (exprOccurrences e) →
    (emitExpr r e).map (readInput inputs) = emitExpr r e
  | .lit l, _ => by
    rw [emitExpr]
    exact readInput_emitLiteral inputs l
  | .wordRef name span, h => by
    -- only a name without a target is emitted as the text that `readInput` reads
    have hTarget := h (name, span) (List.mem_singleton_self _)
    obtain ⟨t, ht⟩ := Option.isSome_iff_exists.1 hTarget
    have hWord : emitWord r name span = .word t := by
      rw [emitWord, ht]
    rw [emitExpr, hWord]
    rfl
  | .ifElse _ none _, _ => by
    rw [emitExpr]
    rfl
  | .ifElse _ (some _) _, _ => by
    rw [emitExpr]
    rfl
  | .beginUntil _ _, _ => by
    rw [emitExpr]
    rfl
  | .beginWhileRepeat _ _ _, _ => by
    rw [emitExpr]
    rfl
  | .beginAgain _ _, _ => by
    rw [emitExpr]
    rfl
  | .doLoop _ _ _ _, _ => by
    rw [emitExpr]
    rfl
  | .caseOf arms none _, h => by
    rw [emitExpr]
    exact readInput_emitCaseChain arms _ h rfl
  | .caseOf arms (some default) _, h => by
    rw [emitExpr]
    refine readInput_emitCaseChain arms _ h.left ?_
    rw [List.map_append, readInput_emitExprs default h.right]
    rfl
  | .tick _ _, _ => by
    rw [emitExpr]
    rfl
  | .toValue _ _, _ => by
    rw [emitExpr]
    rfl
  | .see _ _, _ => by
    rw [emitExpr]
    rfl
  | .letForm _ _, _ => by
    rw [emitExpr]
    rfl
  | .locals names _, _ => by
    rw [emitExpr]
    exact readInput_emitLocals inputs names

theorem readInput_emitCaseChain : ∀ (arms : List (CaseArm Expr)) (base : List Tok),
    Targeted r (armsOccurrences arms) → base.map (readInput inputs) = base →
    (emitCaseChain r arms base).map (readInput inputs) = emitCaseChain r arms base
  | [], base, _, hBase => by
    rw [emitCaseChain]
    exact hBase
  | ⟨matchExpr, body, _⟩ :: arms, base, h, _ => by
    rw [emitCaseChain, List.map_append, List.map_cons,
      readInput_emitExprs matchExpr (Targeted.left (Targeted.left h))]
    rfl

theorem readInput_emitExprs : ∀ es : List Expr, Targeted r (occurrences es) →
    (emitExprs r es).map (readInput inputs) = emitExprs r es
  | [], _ => by
    rw [emitExprs]
    rfl
  | e :: es, h => by
    rw [emitExprs_cons hw, List.map_append, readInput_emitExpr e h.left,
      readInput_emitExprs es h.right]
end

theorem readInput_emitBody (body : List Expr) (h : Targeted r (occurrences body)) :
    (emitBody r body).map (readInput inputs) = emitBody r body := by
  unfold emitBody
  split
  · rfl
  · exact readInput_emitExprs inputs hw body h

end Read

end FactorForth.Semantics
