import FactorForth.Compiler.ParseItems
import FactorForth.Library.Outcome

/-! What a parser leaves is the end of the tokens it was given, so each item of a program is read by its
own parser somewhere in the text. -/

namespace FactorForth.Correctness
open FactorForth.Library FactorForth.Compiler

def LeavesEnd {α : Type} {n : Nat} (toks : List Lex.Token) (r : Except ParseError (Parsed α n)) : Prop :=
  ∀ p, r = .ok p → p.rest <:+ toks

namespace LeavesEnd
variable {α β : Type} {m n : Nat} {toks : List Lex.Token} {r : Except ParseError (Parsed α m)}

theorem error (e : ParseError) : LeavesEnd toks (.error e : Except ParseError (Parsed α n)) :=
  fun _ h => nomatch h

theorem ok {a : α} {rest : List Lex.Token} {hShort : rest.length < n} (h : rest <:+ toks) :
    LeavesEnd toks (.ok ⟨a, rest, hShort⟩) := by
  intro p hp
  obtain rfl := Except.ok.inj hp
  exact h

theorem map {f : Parsed α m → Parsed β n} (h : LeavesEnd toks r) (hf : ∀ p, (f p).rest = p.rest) :
    LeavesEnd toks (r.map f) := by
  intro q hq
  obtain ⟨p, hp, rfl⟩ := ok_of_map hq
  rw [hf]
  exact h p hp

theorem bind {f : Parsed α m → Except ParseError (Parsed β n)} (h : LeavesEnd toks r)
    (hf : ∀ p, p.rest <:+ toks → LeavesEnd p.rest (f p)) : LeavesEnd toks (r >>= f) := by
  intro q hq
  obtain ⟨p, hp, hq⟩ := ok_of_bind hq
  have hSuffix := h p hp
  exact (hf p hSuffix q hq).trans hSuffix

theorem trans {rest : List Lex.Token} (h : LeavesEnd rest r) (hRest : rest <:+ toks) :
    LeavesEnd toks r := fun p hp => (h p hp).trans hRest

end LeavesEnd

theorem nextCode_stands {toks : List Lex.Token} {p : Parsed Code toks.length}
    (h : nextCode toks = some p) : ⟨.code p.value.tok, p.value.span⟩ :: p.rest <:+ toks := by
  induction toks with
  | nil => cases h
  | cons tok toks ih =>
    obtain ⟨kind, span⟩ := tok
    cases kind with
    | code t =>
      obtain rfl := Option.some.inj h
      exact List.suffix_refl _
    | lineComment text =>
      obtain ⟨q, hq, rfl⟩ := Option.map_eq_some_iff.mp h
      exact (ih hq).trans (List.suffix_cons _ _)
    | blockComment text =>
      obtain ⟨q, hq, rfl⟩ := Option.map_eq_some_iff.mp h
      exact (ih hq).trans (List.suffix_cons _ _)

theorem nextCode_end {toks : List Lex.Token} {p : Parsed Code toks.length}
    (h : nextCode toks = some p) : p.rest <:+ toks :=
  (List.suffix_cons _ _).trans (nextCode_stands h)

theorem nameAfter_end (e : ParseError) (toks : List Lex.Token) : LeavesEnd toks (nameAfter e toks) := by
  unfold nameAfter
  split
  · exact .ok (List.suffix_cons _ _)
  · exact .error _

theorem parseNamed_end (keyword : String) (span : Span) (mk : String → Span → Expr)
    (rest : List Lex.Token) : LeavesEnd rest (parseNamed keyword span mk rest) :=
  (nameAfter_end _ rest).map fun _ => rfl

theorem parseLocalsBlock_end (openSpan : Span) (toks : List Lex.Token) :
    LeavesEnd toks (parseLocalsBlock openSpan toks) := by
  rw [parseLocalsBlock.eq_def]
  split
  · rename_i w span rest hShort hNext
    have hRest := nextCode_end hNext
    split
    · exact .ok hRest
    · split
      · exact .error _
      · refine LeavesEnd.trans (LeavesEnd.map ?_ fun _ => rfl) hRest
        exact parseLocalsBlock_end openSpan rest
  · exact .error _
termination_by toks.length

section
variable (parseLet : String → Except String LetLang.LetForm)

mutual
theorem exprOne_end (t : Lex.Tok) (span : Span) (rest : List Lex.Token) :
    LeavesEnd rest (exprOne parseLet t span rest) := by
  rw [exprOne.eq_def]
  cases t with
  | int value base raw => exact .ok (List.suffix_refl _)
  | float value raw => exact .ok (List.suffix_refl _)
  | str value kind => exact .ok (List.suffix_refl _)
  | letBlock text =>
    dsimp only
    split
    · exact .ok (List.suffix_refl _)
    · exact .error _
  | word w =>
    dsimp only
    split
    · exact (parseIf_end span rest).map fun _ => rfl
    · exact (parseBegin_end span rest).map fun _ => rfl
    · exact (parseDo_end span false rest).map fun _ => rfl
    · exact (parseDo_end span true rest).map fun _ => rfl
    · refine LeavesEnd.map (LeavesEnd.map ?_ fun _ => rfl) fun _ => rfl
      exact parseCase_end span rest
    · exact (parseNamed_end _ span _ rest).map fun _ => rfl
    · exact (parseNamed_end _ span _ rest).map fun _ => rfl
    · exact (parseNamed_end _ span _ rest).map fun _ => rfl
    · refine LeavesEnd.map (LeavesEnd.map ?_ fun _ => rfl) fun _ => rfl
      exact parseLocalsBlock_end span rest
    · split
      · exact .error _
      · exact .ok (List.suffix_refl _)
termination_by 3 * rest.length + 2

theorem parseIf_end (ifSpan : Span) (toks : List Lex.Token) :
    LeavesEnd toks (parseIf parseLet ifSpan toks) := by
  rw [parseIf.eq_def]
  refine (parseBlockUntil_end _ _ _ toks).bind fun b hb => ?_
  have hShort := b.shorter
  split
  · exact (parseBlockUntil_end _ _ _ b.rest).bind fun e _ => .ok (List.suffix_refl _)
  · exact .ok (List.suffix_refl _)
termination_by 3 * toks.length + 1

theorem parseBegin_end (beginSpan : Span) (toks : List Lex.Token) :
    LeavesEnd toks (parseBegin parseLet beginSpan toks) := by
  rw [parseBegin.eq_def]
  refine (parseBlockUntil_end _ _ _ toks).bind fun b hb => ?_
  have hShort := b.shorter
  dsimp only
  split
  · exact .ok (List.suffix_refl _)
  · exact .ok (List.suffix_refl _)
  · exact (parseBlockUntil_end _ _ _ b.rest).bind fun r _ => .ok (List.suffix_refl _)
termination_by 3 * toks.length + 1

theorem parseDo_end (doSpan : Span) (isQdo : Bool) (toks : List Lex.Token) :
    LeavesEnd toks (parseDo parseLet doSpan isQdo toks) := by
  rw [parseDo.eq_def]
  exact (parseBlockUntil_end _ _ _ toks).bind fun b _ => .ok (List.suffix_refl _)
termination_by 3 * toks.length + 1

theorem parseCase_end (caseSpan : Span) (toks : List Lex.Token) :
    LeavesEnd toks (parseCase parseLet caseSpan toks) := by
  rw [parseCase.eq_def]
  refine (parseBlockUntil_end _ _ _ toks).bind fun b hb => ?_
  have hShort := b.shorter
  split
  · refine (parseBlockUntil_end _ _ _ b.rest).bind fun a ha => ?_
    have hShort' := a.shorter
    exact (parseCase_end caseSpan a.rest).bind fun c _ => .ok (List.suffix_refl _)
  · exact .ok (List.suffix_refl _)
  · exact (parseBlockUntil_end _ _ _ b.rest).bind fun d _ => .ok (List.suffix_refl _)
termination_by 3 * toks.length + 1

theorem parseBlockUntil_end (opener : String) (openedAt : Span) (terminators : List String)
    (toks : List Lex.Token) :
    LeavesEnd toks (parseBlockUntil parseLet opener openedAt terminators toks) := by
  rw [parseBlockUntil.eq_def]
  dsimp only
  split
  · exact .error _
  · rename_i t span rest hShort hNext
    have hRest := nextCode_end hNext
    have hBody : LeavesEnd rest (exprOne parseLet t span rest >>= fun e => do
        have he : e.rest.length < toks.length := Nat.lt_of_lt_of_le e.shorter hShort
        let b ← parseBlockUntil parseLet opener openedAt terminators e.rest
        return (⟨⟨e.value :: b.value.body, b.value.word, b.value.span⟩, b.rest,
          Nat.lt_trans b.shorter he⟩ : Parsed Block toks.length)) := by
      refine (exprOne_end t span rest).bind fun e _ => ?_
      have hLess := e.shorter
      exact (parseBlockUntil_end opener openedAt terminators e.rest).bind
        fun b _ => .ok (List.suffix_refl _)
    split
    · split
      · exact .ok hRest
      · split
        · exact .error _
        · exact hBody.trans hRest
    · exact hBody.trans hRest
termination_by 3 * toks.length
end

/-! The items. -/

theorem parseBody_end (opened : Span) (forbidColon : Bool) (toks : List Lex.Token) :
    LeavesEnd toks (parseBody parseLet opened forbidColon toks) := by
  rw [parseBody.eq_def]
  dsimp only
  split
  · exact .error _
  · rename_i t span rest hShort hNext
    have hRest := nextCode_end hNext
    have hBody : LeavesEnd rest (exprOne parseLet t span rest >>= fun e => do
        have he : e.rest.length < toks.length := Nat.lt_of_lt_of_le e.shorter hShort
        let b ← parseBody parseLet opened forbidColon e.rest
        return (⟨(e.value :: b.value.1, b.value.2), b.rest, Nat.lt_trans b.shorter he⟩ :
          Parsed (List Expr × Span) toks.length)) := by
      refine (exprOne_end parseLet t span rest).bind fun e _ => ?_
      have hLess := e.shorter
      exact (parseBody_end opened forbidColon e.rest).bind fun b _ => .ok (List.suffix_refl _)
    split
    · split
      · exact .ok hRest
      · split
        · exact .error _
        · exact hBody.trans hRest
    · exact hBody.trans hRest
termination_by toks.length

theorem effectAfter_end (toks : List Lex.Token) : (effectAfter toks).2.rest <:+ toks := by
  unfold effectAfter
  split
  · split
    · exact List.suffix_cons _ _
    · exact List.suffix_refl _
  · exact List.suffix_refl _

theorem headLocals_end (toks : List Lex.Token) : LeavesEnd toks (headLocals toks) := by
  unfold headLocals
  split
  · rename_i w span rest hShort hNext
    split
    · refine LeavesEnd.trans (LeavesEnd.map ?_ fun _ => rfl) (nextCode_end hNext)
      exact parseLocalsBlock_end span rest
    · exact .ok (List.suffix_refl _)
  · exact .ok (List.suffix_refl _)

theorem colonDefinition_end (colonSpan : Span) (toks : List Lex.Token) :
    LeavesEnd toks (colonDefinition parseLet colonSpan toks) := by
  unfold colonDefinition
  refine (nameAfter_end _ toks).bind fun name _ => ?_
  refine LeavesEnd.trans ?_ (effectAfter_end name.rest)
  refine (headLocals_end _).bind fun locals _ => ?_
  exact (parseBody_end parseLet _ _ _).bind fun body _ => .ok (List.suffix_refl _)

theorem parseSlots_end (kwSpan : Span) (toks : List Lex.Token) :
    LeavesEnd toks (parseSlots kwSpan toks) := by
  rw [parseSlots.eq_def]
  split
  · exact .error _
  · rename_i w span rest hShort hNext
    have hRest := nextCode_end hNext
    split
    · exact .ok hRest
    · split
      · split
        · rename_i slot slotSpan rest' hShort' hSlot
          refine LeavesEnd.map ?_ fun _ => rfl
          exact (parseSlots_end kwSpan rest').trans ((nextCode_end hSlot).trans hRest)
        · exact .error _
      · exact .error _
  · exact .error _
termination_by toks.length

theorem extendsClause_end (kwSpan : Span) (toks : List Lex.Token) :
    LeavesEnd toks (extendsClause kwSpan toks) := by
  unfold extendsClause
  split
  · rename_i w span rest hShort hNext
    have hRest := nextCode_end hNext
    split
    · split
      · rename_i parent parentSpan rest' hShort' hParent
        exact .ok ((nextCode_end hParent).trans hRest)
      · exact .error _
    · exact .ok (List.suffix_refl _)
  · exact .ok (List.suffix_refl _)

theorem classDefinition_end (kwSpan : Span) (toks : List Lex.Token) :
    LeavesEnd toks (classDefinition kwSpan toks) := by
  unfold classDefinition
  refine (nameAfter_end _ toks).bind fun name _ => ?_
  refine (extendsClause_end kwSpan name.rest).bind fun parent _ => ?_
  exact (parseSlots_end kwSpan parent.rest).bind fun slots _ => .ok (List.suffix_refl _)

theorem requiredEffect_end (keyword : String) (nameSpan : Span) (toks : List Lex.Token) :
    LeavesEnd toks (requiredEffect keyword nameSpan toks) := by
  unfold requiredEffect
  split
  · split
    · exact .ok (List.suffix_cons _ _)
    · exact .error _
  · exact .error _

theorem genericDeclaration_end (kwSpan : Span) (toks : List Lex.Token) :
    LeavesEnd toks (genericDeclaration kwSpan toks) := by
  unfold genericDeclaration
  refine (nameAfter_end _ toks).bind fun name _ => ?_
  exact (requiredEffect_end _ _ name.rest).bind fun effect _ => .ok (List.suffix_refl _)

theorem methodDefinition_end (kwSpan : Span) (keyword : String) (kind : MethodKind)
    (toks : List Lex.Token) : LeavesEnd toks (methodDefinition parseLet kwSpan keyword kind toks) := by
  unfold methodDefinition
  refine (nameAfter_end _ toks).bind fun name _ => ?_
  refine (requiredEffect_end _ _ name.rest).bind fun raw _ => ?_
  refine (headLocals_end raw.rest).bind fun locals _ => ?_
  exact (parseBody_end parseLet _ _ _).bind fun body _ => .ok (List.suffix_refl _)

/-- `ALLOT` behind a unit, as `allotRun` looks for it. -/
def allotWord (value : Int) (unit : Nat) {n : Nat} (toks : List Lex.Token) (hle : toks.length ≤ n) :
    Option (Parsed (Nat × Span) n) :=
  match nextCode toks with
  | some ⟨⟨.word w, span⟩, rest, h⟩ =>
    if eqIgnoreAsciiCase w "allot" then
      some ⟨(saturatingMul (asU32 value) unit, span), rest, Nat.lt_of_lt_of_le h hle⟩
    else none
  | _ => none

theorem allotWord_end {value : Int} {unit n : Nat} {toks : List Lex.Token} {hle : toks.length ≤ n}
    {p : Parsed (Nat × Span) n} (h : allotWord value unit toks hle = some p) : p.rest <:+ toks := by
  unfold allotWord at h
  split at h
  · rename_i w span rest hShort hNext
    split at h
    · obtain rfl := Option.some.inj h
      exact nextCode_end hNext
    · cases h
  · cases h

theorem allotRun_end {toks : List Lex.Token} {p : Parsed (Nat × Span) toks.length}
    (h : allotRun toks = some p) : p.rest <:+ toks := by
  unfold allotRun at h
  split at h
  · rename_i value base raw span rest hShort hNext
    have hRest := nextCode_end hNext
    split at h
    · cases h
    · have hAllot : ∀ {unit : Nat} {toks' : List Lex.Token} {hle : toks'.length ≤ toks.length},
          toks' <:+ toks → allotWord value unit toks' hle = some p → p.rest <:+ toks :=
        fun hEnd hSome => (allotWord_end hSome).trans hEnd
      have hLess := Nat.le_of_lt hShort
      split at h
      · rename_i w' span' rest' hShort' hUnit
        have hLess' : rest'.length ≤ toks.length := by omega
        have hBehind := (nextCode_end hUnit).trans hRest
        split at h
        · exact @hAllot 8 rest' hLess' hBehind h
        · split at h
          · exact @hAllot 1 rest' hLess' hBehind h
          · exact @hAllot 1 rest hLess hRest h
      · cases h
  · cases h

theorem allotRuns_end (allotted : Nat) (stop : Pos) (toks : List Lex.Token) :
    (allotRuns allotted stop toks).rest <:+ toks := by
  rw [allotRuns.eq_def]
  split
  · exact List.suffix_refl _
  · rename_i bytes span rest hShort hRun
    exact (allotRuns_end _ _ rest).trans (allotRun_end hRun)
termination_by toks.length

theorem createDefinition_end (kwSpan : Span) (toks : List Lex.Token) :
    LeavesEnd toks (createDefinition kwSpan toks) := by
  unfold createDefinition
  exact (nameAfter_end _ toks).bind fun name _ => .ok (allotRuns_end _ _ name.rest)

theorem namedItem_end (keyword : String) (kwSpan : Span) (make : Name → Item) (toks : List Lex.Token) :
    LeavesEnd toks ((definingName keyword kwSpan toks).map fun p => p.map make) :=
  (nameAfter_end _ toks).map fun _ => rfl

theorem collectionDefinition_end (kind : CollectionKind) (kwSpan : Span) (pending : Pending)
    (toks : List Lex.Token) : LeavesEnd toks (collectionDefinition kind kwSpan pending toks) := by
  intro p hp
  obtain ⟨size, -, hp⟩ := ok_of_bind hp
  exact ((nameAfter_end _ toks).bind fun name _ => .ok (List.suffix_refl _)) p hp

theorem constantDefinition_end (flavour : ConstFlavour) (kwSpan : Span) (pending : Pending)
    (toks : List Lex.Token) : LeavesEnd toks (constantDefinition flavour kwSpan pending toks) := by
  unfold constantDefinition
  dsimp only
  split
  · exact .error _
  · exact namedItem_end _ _ _ toks

theorem valueDefinition_end (kwSpan : Span) (pending : Pending) (toks : List Lex.Token) :
    LeavesEnd toks (valueDefinition kwSpan pending toks) := by
  unfold valueDefinition
  split
  · exact .error _
  · exact namedItem_end _ _ _ toks

/-- Every opener leaves an end of the tokens behind it. -/
theorem opener_end {t : Lex.Tok} {read : Span → (toks : List Lex.Token) →
    Except ParseError (Parsed Item toks.length)} (h : opener parseLet t = .flushing read) (span : Span)
    (toks : List Lex.Token) : LeavesEnd toks (read span toks) := by
  cases t with
  | word w =>
    unfold opener at h
    dsimp only at h
    split at h
    all_goals cases h
    · exact colonDefinition_end parseLet span toks
    · exact namedItem_end _ _ _ toks
    · exact namedItem_end _ _ _ toks
    · exact createDefinition_end span toks
    · exact classDefinition_end span toks
    · exact genericDeclaration_end span toks
    · exact methodDefinition_end parseLet span _ _ toks
    · exact methodDefinition_end parseLet span _ _ toks
    · exact methodDefinition_end parseLet span _ _ toks
  | _ => cases h

/-- An item that a defining word reads from the tokens behind it. -/
def OpenedIn (toks : List Lex.Token) (item : Item) : Prop :=
  ∃ t span rest read p, ⟨.code t, span⟩ :: rest <:+ toks ∧ opener parseLet t = .flushing read ∧
    read span rest = .ok p ∧ p.value = item

theorem OpenedIn.trans {rest toks : List Lex.Token} {item : Item} (h : OpenedIn parseLet rest item)
    (hRest : rest <:+ toks) : OpenedIn parseLet toks item := by
  obtain ⟨t, span, behind, read, p, hStands, hRead⟩ := h
  exact ⟨t, span, behind, read, p, hStands.trans hRest, hRead⟩

/-- The items that a pending run ends in. -/
def Item.isRun : Item → Bool
  | .topLevel _ _ => true
  | .collection _ => true
  | .constant _ => true
  | .value _ => true
  | _ => false

theorem pending_run {p : Pending} {item : Item} (h : item ∈ p.items) : Item.isRun item = true := by
  unfold Pending.items at h
  split at h
  · obtain rfl := List.mem_singleton.mp h
    rfl
  · cases h

theorem collectionDefinition_run {kind : CollectionKind} {kwSpan : Span} {pending : Pending}
    {toks : List Lex.Token} {p : Parsed Item toks.length}
    (h : collectionDefinition kind kwSpan pending toks = .ok p) : Item.isRun p.value = true := by
  obtain ⟨size, -, h⟩ := ok_of_bind h
  obtain ⟨name, -, h⟩ := ok_of_bind h
  obtain rfl := Except.ok.inj h
  rfl

theorem taking_run {t : Lex.Tok} {read : Span → Pending → (toks : List Lex.Token) →
    Except ParseError (Parsed Item toks.length)} (h : opener parseLet t = .taking read) {span : Span}
    {pending : Pending} {toks : List Lex.Token} {p : Parsed Item toks.length}
    (hp : read span pending toks = .ok p) : Item.isRun p.value = true ∧ p.rest <:+ toks := by
  cases t with
  | word w =>
    unfold opener at h
    dsimp only at h
    split at h
    all_goals cases h
    · refine ⟨?_, constantDefinition_end _ _ _ toks p hp⟩
      unfold constantDefinition at hp
      dsimp only at hp
      split at hp
      · cases hp
      · obtain ⟨q, -, rfl⟩ := ok_of_map hp
        rfl
    · refine ⟨?_, constantDefinition_end _ _ _ toks p hp⟩
      unfold constantDefinition at hp
      dsimp only at hp
      split at hp
      · cases hp
      · obtain ⟨q, -, rfl⟩ := ok_of_map hp
        rfl
    · refine ⟨?_, valueDefinition_end _ _ toks p hp⟩
      unfold valueDefinition at hp
      split at hp
      · cases hp
      · obtain ⟨q, -, rfl⟩ := ok_of_map hp
        rfl
  | _ => cases h

/-- Every item of a text is read by its defining word somewhere in the text, but for those that a
pending run ends in. -/
theorem programFrom_opened {pending : Pending} {toks : List Lex.Token} {items : List Item}
    (h : programFrom parseLet pending toks = .ok items) {item : Item} (hItem : item ∈ items)
    (hRun : Item.isRun item = false) : OpenedIn parseLet toks item := by
  have hNotRun : Item.isRun item ≠ true := Bool.eq_false_iff.mp hRun
  rw [programFrom.eq_def] at h
  split at h
  · obtain rfl := Except.ok.inj h
    exact absurd (pending_run hItem) hNotRun
  · rename_i t span rest hShort hNext
    have hStands := nextCode_stands hNext
    have hRest := nextCode_end hNext
    split at h
    · cases h
    · obtain ⟨e, he, h⟩ := ok_of_bind h
      have hLess : e.rest.length < toks.length := Nat.lt_of_lt_of_le e.shorter hShort
      have hEnd := (exprOne_end parseLet t span rest e he).trans hRest
      exact (programFrom_opened h hItem hRun).trans parseLet hEnd
    · rename_i read hOpener
      obtain ⟨own, hOwn, h⟩ := ok_of_bind h
      obtain ⟨later, hLater, h⟩ := ok_of_bind h
      obtain rfl := Except.ok.inj h
      have hLess : own.rest.length < toks.length := Nat.lt_trans own.shorter hShort
      have hEnd := (opener_end parseLet hOpener span rest own hOwn).trans hRest
      rcases List.mem_append.mp hItem with hPending | hBehind
      · exact absurd (pending_run hPending) hNotRun
      · rcases List.mem_cons.mp hBehind with rfl | hIn
        · exact ⟨t, span, rest, read, own, hStands, hOpener, hOwn, rfl⟩
        · exact (programFrom_opened hLater hIn hRun).trans parseLet hEnd
    · obtain ⟨own, hOwn, h⟩ := ok_of_bind h
      obtain ⟨later, hLater, h⟩ := ok_of_bind h
      obtain rfl := Except.ok.inj h
      have hLess : own.rest.length < toks.length := Nat.lt_trans own.shorter hShort
      have hEnd := (collectionDefinition_end _ _ _ rest own hOwn).trans hRest
      rcases List.mem_append.mp hItem with hPending | hBehind
      · exact absurd (pending_run hPending) hNotRun
      · rcases List.mem_cons.mp hBehind with rfl | hIn
        · exact absurd (collectionDefinition_run hOwn) hNotRun
        · exact (programFrom_opened hLater hIn hRun).trans parseLet hEnd
    · rename_i read hOpener
      obtain ⟨own, hOwn, h⟩ := ok_of_bind h
      obtain ⟨later, hLater, h⟩ := ok_of_bind h
      obtain rfl := Except.ok.inj h
      have hLess : own.rest.length < toks.length := Nat.lt_trans own.shorter hShort
      obtain ⟨hOwnRun, hOwnEnd⟩ := taking_run parseLet hOpener hOwn
      rcases List.mem_cons.mp hItem with rfl | hIn
      · exact absurd hOwnRun hNotRun
      · exact (programFrom_opened hLater hIn hRun).trans parseLet (hOwnEnd.trans hRest)
termination_by toks.length

end

end FactorForth.Correctness
