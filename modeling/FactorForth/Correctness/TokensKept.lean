import FactorForth.Correctness.ParsePrint

/-! The parser keeps the tokens of a stream exactly when the stream is a sentence that drops none. -/

namespace FactorForth.Correctness
open FactorForth.Library FactorForth.Compiler

/-! What survives without spans. -/

theorem bareExprs_eq_map (es : List Expr) : bareExprs es = es.map bareExpr := by
  induction es with
  | nil => rfl
  | cons e es ih => rw [bareExprs, ih, List.map_cons]

theorem bareExpr_wordRef {e : Expr} {name : String} (h : bareExpr e = .wordRef name noSpan) :
    ∃ span, e = .wordRef name span := by
  cases e with
  | wordRef n span =>
    obtain ⟨rfl, -⟩ := Expr.wordRef.inj h
    exact ⟨span, rfl⟩
  | ifElse thenBody elseBody span => cases elseBody <;> cases h
  | caseOf arms default span => cases default <;> cases h
  | _ => cases h

def isWordExpr (w : String) (e : Expr) : Bool :=
  match e with
  | .wordRef n _ => eqIgnoreAsciiCase n w
  | _ => false

theorem isWordExpr_bare (w : String) (e : Expr) : isWordExpr w (bareExpr e) = isWordExpr w e := by
  cases e with
  | ifElse thenBody elseBody span => cases elseBody <;> rfl
  | caseOf arms default span => cases default <;> rfl
  | _ => rfl

theorem findIdx_bare (w : String) {es es' : List Expr} (h : bareExprs es = bareExprs es') :
    es.findIdx? (isWordExpr w) = es'.findIdx? (isWordExpr w) := by
  have hBare : ∀ l : List Expr, l.findIdx? (isWordExpr w) = (bareExprs l).findIdx? (isWordExpr w) := by
    intro l
    rw [bareExprs_eq_map, List.findIdx?_map]
    congr 1
    funext e
    exact (isWordExpr_bare w e).symm
  rw [hBare, h, ← hBare]

theorem templateParts_eq (body : List Expr) :
    templateParts body =
      match body.findIdx? (isWordExpr "create"), body.findIdx? (isWordExpr "does>") with
      | some ci, some di =>
        if ci < di then some ((body.drop (ci + 1)).take (di - ci - 1), body.drop (di + 1)) else none
      | _, _ => none := rfl

/-- Whether a body is a template does not depend on its spans. -/
theorem templateParts_bare {es es' : List Expr} (h : bareExprs es = bareExprs es') :
    (templateParts es).isSome = (templateParts es').isSome := by
  rw [templateParts_eq, templateParts_eq, findIdx_bare "create" h, findIdx_bare "does>" h]
  split
  · split <;> rfl
  · rfl

theorem noColon_bare {es es' : List Expr} (h : bareExprs es = bareExprs es') (hColon : NoColon es') :
    NoColon es := by
  rintro e he span rfl
  have hMem : Expr.wordRef ":" noSpan ∈ bareExprs es := by
    rw [bareExprs_eq_map]
    exact List.mem_map.mpr ⟨_, he, rfl⟩
  rw [h, bareExprs_eq_map] at hMem
  obtain ⟨e', he', hEq⟩ := List.mem_map.mp hMem
  obtain ⟨span', rfl⟩ := bareExpr_wordRef hEq
  exact hColon _ he' span' rfl

theorem startsCreate_bare {es es' : List Expr} (h : bareExprs es = bareExprs es')
    (hCreate : StartsCreate es') : StartsCreate es := by
  obtain ⟨c, span, rest, rfl, hc⟩ := hCreate
  cases es with
  | nil => cases h
  | cons e es =>
    obtain ⟨span', rfl⟩ := bareExpr_wordRef (List.cons.inj h).1
    exact ⟨c, span', es, rfl, hc⟩

section
variable {parseLet : String → Except String LetLang.LetForm}

theorem Finds.of_ok {α : Type} {n : Nat} {free : Prop} {r : Except ParseError (Parsed α n)}
    {Q : α → List Lex.Token → Prop} (h : Finds free r Q) {p : Parsed α n} (hr : r = .ok p) :
    Q p.value p.rest := by
  rcases h with ⟨q, hq, hQ⟩ | ⟨⟨e, he⟩, -⟩
  · rw [hr] at hq
    obtain rfl := Except.ok.inj hq
    exact hQ
  · rw [hr] at he
    cases he

theorem behind_codes {toks : List Lex.Token} {ts : List Lex.Tok} (h : codes toks = ts) :
    Behind False ts toks := ⟨h, False.elim⟩

/-! Each defining word behind its own token. -/

theorem nameAfter_keeps {error : ParseError} {toks : List Lex.Token} {p : Parsed Name toks.length}
    (h : nameAfter error toks = .ok p) {n : String} {ts : List Lex.Tok}
    (hCodes : codes toks = .word n :: ts) : p.value.text = n ∧ codes p.rest = ts := by
  rw [nameAfter_codes h] at hCodes
  obtain ⟨hName, hRest⟩ := List.cons.inj hCodes
  exact ⟨Lex.Tok.word.inj hName, hRest⟩

theorem BodyText.open_behind {locals : List LocalDecl} {body : List Expr} {hs bs : List Lex.Tok}
    (hBody : BodyText False parseLet locals body hs bs) (more : List Lex.Tok) :
    hs = [] → (bs ++ Lex.Tok.word ";" :: more).head? ≠ some (.word "\x7b:") := by
  intro hNone
  have hFirst := hBody.open_ hNone
  cases bs with
  | nil => simp
  | cons t bs => exact hFirst

theorem colonDefinition_keeps {colonSpan : Span} {toks : List Lex.Token}
    {p : Parsed Item toks.length} (h : colonDefinition parseLet colonSpan toks = .ok p)
    {k n : String} (hk : lower k = ":") {locals : List LocalDecl} {body : List Expr}
    {hs bs more : List Lex.Tok} (hBody : BodyText False parseLet locals body hs bs)
    (hColon : NoColon body)
    (hDrop : (templateParts body).isSome → hs = [] ∧ StartsCreate body)
    (hCodes : codes toks = .word n :: (hs ++ (bs ++ .word ";" :: more))) :
    ItemText False parseLet p.value (.word k :: .word n :: hs ++ bs ++ [.word ";"]) ∧
      codes p.rest = more := by
  have hOpen := hBody.open_behind more
  have hFinds := colonDefinition_finds colonSpan hBody.head hBody.exprs hColon hOpen
    (behind_codes hCodes)
  obtain ⟨hMore, d, hItem, rfl, -, -, hBare, hHead, hExprs⟩ := hFinds.of_ok h
  refine ⟨?_, hMore.codes⟩
  have hText : BodyText False parseLet d.locals d.body hs bs := ⟨hHead, hExprs, hBody.open_⟩
  have hColon' := noColon_bare hBare hColon
  rw [hItem]
  unfold colonItem
  split
  · rename_i constructor doesBody hParts
    have hSome : (templateParts body).isSome := by
      rw [← templateParts_bare hBare, hParts]
      rfl
    obtain ⟨hNone, hCreate⟩ := hDrop hSome
    exact .template (t := ⟨d.name, d.nameSpan, d.effect, constructor, doesBody, d.span⟩) hk hText
      hColon' hParts (.inr ⟨hNone, startsCreate_bare hBare hCreate⟩)
  · rename_i hParts
    exact .definition hk hText hColon' hParts

theorem methodDefinition_keeps {kwSpan : Span} {keyword : String} {kind : MethodKind}
    {toks : List Lex.Token} {p : Parsed Item toks.length}
    (h : methodDefinition parseLet kwSpan keyword kind toks = .ok p) {k n : String}
    (hk : lower k = methodWord kind) {locals : List LocalDecl} {body : List Expr}
    {hs bs more : List Lex.Tok} (hBody : BodyText False parseLet locals body hs bs)
    (hCodes : codes toks = .word n :: (hs ++ (bs ++ .word ";" :: more))) :
    ItemText False parseLet p.value (.word k :: .word n :: hs ++ bs ++ [.word ";"]) ∧
      codes p.rest = more := by
  unfold methodDefinition at h
  obtain ⟨name, hName, h⟩ := ok_of_bind h
  obtain ⟨raw, hRaw, h⟩ := ok_of_bind h
  obtain ⟨found, hFound, h⟩ := ok_of_bind h
  obtain ⟨read, hRead, h⟩ := ok_of_bind h
  obtain rfl := Except.ok.inj h
  obtain ⟨rfl, hRest⟩ := nameAfter_keeps hName hCodes
  rw [requiredEffect_codes hRaw] at hRest
  have hOpen := hBody.open_behind more
  obtain ⟨-, hHead, hLocals⟩ := (headLocals_finds hBody.head hOpen (behind_codes hRest)).of_ok hFound
  obtain ⟨-, hExprs, hMore⟩ := (parseBody_finds hBody.exprs (by simp) hLocals).of_ok hRead
  refine ⟨?_, hMore.codes⟩
  exact .method (m := ⟨name.value.text, name.value.span, _, _, found.value, read.value.1, _, kind⟩) hk
    ⟨hHead, hExprs, hBody.open_⟩

/-- The slots of a class are told by their text. -/
theorem slotsText_unique {slots slots' : List SlotDef} {ts us xs ys : List Lex.Tok}
    (h : SlotsText slots ts) (h' : SlotsText slots' us) (hEq : ts ++ xs = us ++ ys) :
    ts = us ∧ xs = ys := by
  induction h generalizing slots' us with
  | stop =>
    cases h' with
    | stop => exact ⟨rfl, (List.cons.inj hEq).2⟩
    | slot hk hSlots =>
      have hWord := Lex.Tok.word.inj (List.cons.inj hEq).1
      rw [← hWord] at hk
      exact absurd hk (by decide)
  | slot hk hSlots ih =>
    cases h' with
    | stop =>
      have hWord := Lex.Tok.word.inj (List.cons.inj hEq).1
      rw [hWord] at hk
      exact absurd hk (by decide)
    | slot hk' hSlots' =>
      simp only [List.cons_append, List.cons.injEq] at hEq
      obtain ⟨hKey, hName, hEq⟩ := hEq
      obtain ⟨rfl, rfl⟩ := ih hSlots' hEq
      rw [hKey, hName]
      exact ⟨rfl, rfl⟩

theorem slotsText_head {slots : List SlotDef} {ts : List Lex.Tok} (h : SlotsText slots ts) :
    ∃ w us, ts = .word w :: us ∧ lower w ≠ "extends" := by
  cases h with
  | stop => exact ⟨_, _, rfl, by decide⟩
  | slot hk =>
    refine ⟨_, _, rfl, ?_⟩
    rw [hk]
    decide

theorem parentText_unique {parent parent' : Option String} {ps qs xs ys : List Lex.Tok}
    {slots slots' : List SlotDef} {ss us : List Lex.Tok} (h : ParentText parent ps)
    (h' : ParentText parent' qs) (hs : SlotsText slots ss) (hs' : SlotsText slots' us)
    (hEq : ps ++ (ss ++ xs) = qs ++ (us ++ ys)) : ps = qs ∧ ss ++ xs = us ++ ys := by
  obtain ⟨w, ws, rfl, hw⟩ := slotsText_head hs
  obtain ⟨w', ws', rfl, hw'⟩ := slotsText_head hs'
  cases h with
  | none =>
    cases h' with
    | none => exact ⟨rfl, hEq⟩
    | some hk =>
      have hWord := Lex.Tok.word.inj (List.cons.inj hEq).1
      rw [← hWord] at hk
      exact absurd hk hw
  | some hk =>
    cases h' with
    | none =>
      have hWord := Lex.Tok.word.inj (List.cons.inj hEq).1
      rw [hWord] at hk
      exact absurd hk hw'
    | some hk' =>
      simp only [List.cons_append, List.nil_append, List.cons.injEq] at hEq
      obtain ⟨hKey, hName, hWord, hTail⟩ := hEq
      rw [hKey, hName, hWord]
      exact ⟨rfl, congrArg _ hTail⟩

theorem classDefinition_keeps {kwSpan : Span} {toks : List Lex.Token} {p : Parsed Item toks.length}
    (h : classDefinition kwSpan toks = .ok p) {k n : String} (hk : lower k = "class:")
    {parent : Option String} {slots : List SlotDef} {ps ss more : List Lex.Tok}
    (hParent : ParentText parent ps) (hSlots : SlotsText slots ss)
    (hCodes : codes toks = .word n :: (ps ++ (ss ++ more))) :
    ItemText False parseLet p.value (.word k :: .word n :: ps ++ ss) ∧ codes p.rest = more := by
  unfold classDefinition at h
  obtain ⟨name, hName, h⟩ := ok_of_bind h
  obtain ⟨parent', hParent', h⟩ := ok_of_bind h
  obtain ⟨slots', hSlots', h⟩ := ok_of_bind h
  obtain rfl := Except.ok.inj h
  obtain ⟨rfl, hRest⟩ := nameAfter_keeps hName hCodes
  obtain ⟨qs, hParentCodes, hParentText⟩ := extendsClause_text hParent'
  obtain ⟨us, hSlotsCodes, hSlotsText⟩ := parseSlots_text kwSpan parent'.rest hSlots'
  rw [hParentCodes, hSlotsCodes] at hRest
  obtain ⟨rfl, hBehind⟩ := parentText_unique hParentText hParent hSlotsText hSlots hRest
  obtain ⟨rfl, hMore⟩ := slotsText_unique hSlotsText hSlots hBehind
  exact ⟨.class_ (c := ⟨name.value.text, name.value.span, parent'.value, slots'.value.1, _⟩) hk
    hParentText hSlotsText, hMore⟩

/-- The counts behind a CREATE are read one by one. -/
theorem allotRuns_keeps {n total : Nat} {ts : List Lex.Tok} (h : AllotsText False n total ts)
    {more : List Lex.Tok} (hMore : ¬ StartsRun more) {toks : List Lex.Token}
    (hCodes : codes toks = ts ++ more) (stop : Pos) :
    (allotRuns n stop toks).value.1 = total ∧ codes (allotRuns n stop toks).rest = more := by
  induction h generalizing toks stop with
  | stop =>
    have hNone : allotRun toks = none := by
      cases hRun : allotRun toks with
      | none => rfl
      | some p =>
        obtain ⟨v, base, raw, unit, us, a, hText, hv, hUnit, ha, -⟩ := allotRun_text hRun
        rw [hCodes] at hText
        exact absurd ⟨v, base, raw, unit, us, a, _, hText, hv, hUnit, ha⟩ hMore
    rw [allotRuns.eq_def, hNone]
    exact ⟨rfl, hCodes⟩
  | @run n total unit v base raw a ts us hv hExact hUnit ha hRuns ih =>
    have hText : codes toks = .int v base raw :: us ++ .word a :: (ts ++ more) := by
      rw [hCodes]
      simp
    obtain ⟨span, rest, hShort, hRest, hRun⟩ := allotRun_run hText hv hUnit ha
    rw [allotRuns.eq_def, hRun]
    exact ih hRest span.stop

theorem createDefinition_keeps {kwSpan : Span} {toks : List Lex.Token} {p : Parsed Item toks.length}
    (h : createDefinition kwSpan toks = .ok p) {k n : String} (hk : lower k = "create") {total : Nat}
    {ts more : List Lex.Tok} (hRuns : AllotsText False 0 total ts) (hMore : ¬ StartsRun more)
    (hCodes : codes toks = .word n :: (ts ++ more)) :
    ItemText False parseLet p.value (.word k :: .word n :: ts) ∧ codes p.rest = more := by
  unfold createDefinition at h
  obtain ⟨name, hName, h⟩ := ok_of_bind h
  obtain rfl := Except.ok.inj h
  obtain ⟨rfl, hRest⟩ := nameAfter_keeps hName hCodes
  obtain ⟨hTotal, hRest'⟩ := allotRuns_keeps hRuns hMore hRest name.value.span.stop
  refine ⟨.create (c := ⟨name.value.text, name.value.span, _, _⟩) hk ?_, hRest'⟩
  rw [hTotal]
  exact hRuns

/-! The top-level loop. -/

theorem opener_of_not_definer {w : String} (h : lower w ∉ definers) :
    opener parseLet (.word w) = .expr := by
  unfold opener
  dsimp only
  split
  all_goals first
    | rfl
    | (rename_i hEq
       rw [hEq] at h
       exact absurd (by decide) h)

theorem opener_lower {k c : String} (hk : lower k = c) (hc : lower c = c) :
    opener parseLet (.word k) = opener parseLet (.word c) := by
  unfold opener
  dsimp only
  rw [hk, hc]

theorem opener_collection {k : String} {kind : CollectionKind}
    (hk : collectionKind (lower k) = some kind) : opener parseLet (.word k) = .collection kind := by
  unfold collectionKind at hk
  split at hk
  · rename_i hLower
    obtain rfl := Option.some.inj hk
    exact opener_lower hLower (by decide)
  · rename_i hLower
    obtain rfl := Option.some.inj hk
    exact opener_lower hLower (by decide)
  · rename_i hLower
    obtain rfl := Option.some.inj hk
    exact opener_lower hLower (by decide)
  · cases hk

/-- The loop takes a run of expressions into the pending run. -/
theorem programFrom_run {es : List Expr} {us : List Lex.Tok} (h : ExprsText False parseLet es us)
    (hPlainRun : NoDefiner es) {ts : List Lex.Tok} {toks : List Lex.Token}
    (hCodes : codes toks = us ++ ts) {pending : Pending} {ps : List Lex.Tok}
    (hPending : ExprsText False parseLet pending.exprs ps) (hPlain : NoDefiner pending.exprs)
    {found : List Item} (hRun : programFrom parseLet pending toks = .ok found) :
    ∃ pending' toks', codes toks' = ts ∧ ExprsText False parseLet pending'.exprs (ps ++ us) ∧
      NoDefiner pending'.exprs ∧ programFrom parseLet pending' toks' = .ok found := by
  induction es generalizing us toks pending ps with
  | nil =>
    cases h
    refine ⟨pending, toks, hCodes, ?_, hPlain, hRun⟩
    rw [List.append_nil]
    exact hPending
  | cons e es ih =>
    cases h with
    | @cons _ _ vs ws hHead hTail =>
      rw [List.append_assoc] at hCodes
      obtain ⟨t, span, rest, hShort, hNext, hStart, hFinds⟩ :=
        exprText_finds hHead _ toks (behind_codes hCodes)
      have hOpen : opener parseLet t = .expr := by
        obtain ⟨t', vs', rfl, -, hWord⟩ := exprText_head hHead
        have hFirst := nextCode_codes hNext
        rw [hCodes] at hFirst
        obtain rfl : t' = t := (List.cons.inj hFirst).1
        cases t' with
        | word w =>
          apply opener_of_not_definer
          -- a name of the run is no definer, and a control word opens no definition
          rcases hWord w rfl with ⟨sp, rfl⟩ | hControl
          · exact hPlainRun _ List.mem_cons_self w sp rfl
          · intro hMem
            have hDisjoint : ∀ c ∈ controlWords, c ∉ definers := by decide
            exact hDisjoint _ hControl hMem
        | _ => rfl
      rw [programFrom.eq_def, hNext] at hRun
      dsimp only at hRun
      rw [hOpen] at hRun
      obtain ⟨p, hp, hRun⟩ := ok_of_bind hRun
      obtain ⟨-, hText, hBehind⟩ := hFinds.of_ok hp
      have hOne : ExprsText False parseLet [p.value] vs := by
        rw [← List.append_nil vs]
        exact .cons hText .nil
      have hPlainPush : NoDefiner (pending.push p.value span).exprs := by
        obtain ⟨t', vs', rfl, -, -⟩ := exprText_head hText
        have hFirst := nextCode_codes hNext
        rw [hCodes] at hFirst
        obtain rfl : t' = t := (List.cons.inj hFirst).1
        exact noDefiner_push hPlain hText hOpen
      have hPlainTail : NoDefiner es := fun e' he' => hPlainRun e' (List.mem_cons_of_mem _ he')
      obtain ⟨pending', toks', hCodes', hPending', hPlain', hRun'⟩ := ih hTail hPlainTail
        hBehind.codes (exprsText_append hPending hOne) hPlainPush hRun
      refine ⟨pending', toks', hCodes', ?_, hPlain', hRun'⟩
      rw [← List.append_assoc]
      exact hPending'

/-- One round of the loop at a defining word that the pending run is executed before. -/
theorem programFrom_flush {pending : Pending} {toks : List Lex.Token} {found : List Item}
    (hRun : programFrom parseLet pending toks = .ok found) {t : Lex.Tok} {us : List Lex.Tok}
    (hCodes : codes toks = t :: us)
    {read : Span → (toks : List Lex.Token) → Except ParseError (Parsed Item toks.length)}
    (hOpen : opener parseLet t = .flushing read) :
    ∃ span, ∃ rest : List Lex.Token, ∃ p : Parsed Item rest.length, ∃ more, codes rest = us ∧
      read span rest = .ok p ∧ programFrom parseLet pending.flushed p.rest = .ok more ∧
        found = pending.items ++ p.value :: more := by
  obtain ⟨span, rest, hShort, hNext, hRest⟩ := nextCode_of_codes hCodes
  rw [programFrom.eq_def, hNext] at hRun
  dsimp only at hRun
  rw [hOpen] at hRun
  obtain ⟨p, hp, hRun⟩ := ok_of_bind hRun
  obtain ⟨more, hMore, hRun⟩ := ok_of_bind hRun
  obtain rfl := Except.ok.inj hRun
  exact ⟨span, rest, p, more, hRest, hp, hMore, rfl⟩

/-- Whatever run is pending, the program parsed from these tokens reads back as the run and them. -/
def Keeps (parseLet : String → Except String LetLang.LetForm) (ts : List Lex.Tok) : Prop :=
  ∀ {pending : Pending} {ps : List Lex.Tok} {toks : List Lex.Token} {found : List Item},
    ExprsText False parseLet pending.exprs ps → NoDefiner pending.exprs → codes toks = ts →
      programFrom parseLet pending toks = .ok found → ItemsText False parseLet found (ps ++ ts)

/-- A defining word that keeps its tokens, in front of items that keep theirs. -/
theorem keeps_flush {t : Lex.Tok} {ts us : List Lex.Tok}
    {read : Span → (toks : List Lex.Token) → Except ParseError (Parsed Item toks.length)}
    (hOpen : opener parseLet t = .flushing read)
    (hRead : ∀ {span} {rest : List Lex.Token} {p : Parsed Item rest.length}, read span rest = .ok p →
      codes rest = ts ++ us → ItemText False parseLet p.value (t :: ts) ∧ codes p.rest = us)
    (ih : Keeps parseLet us) {pending : Pending} {ps : List Lex.Tok} {toks : List Lex.Token}
    {found : List Item} (hPending : ExprsText False parseLet pending.exprs ps)
    (hPlain : NoDefiner pending.exprs) (hCodes : codes toks = t :: ts ++ us)
    (hRun : programFrom parseLet pending toks = .ok found) :
    ItemsText False parseLet found (ps ++ (t :: ts ++ us)) := by
  obtain ⟨span, rest, p, more, hRest, hItem, hMore, rfl⟩ := programFrom_flush hRun hCodes hOpen
  obtain ⟨hText, hBehind⟩ := hRead hItem hRest
  have hEmpty : ExprsText False parseLet pending.flushed.exprs [] := by
    rw [flushed_exprs]
    exact .nil
  have hNone : NoDefiner pending.flushed.exprs := by
    rw [flushed_exprs]
    exact fun e he => by cases he
  have hItems : ItemsText False parseLet more us := ih hEmpty hNone hBehind hMore
  have hGreedy := flushing_greedy hOpen hItem
  rw [hBehind] at hGreedy
  exact pendingItems_text hPending hPlain (.cons hText hItems hGreedy)

/-- A defining word that takes the pending run. -/
theorem keeps_taking {k n : String} {es : List Expr} {ts us : List Lex.Tok}
    {read : Span → Pending → (toks : List Lex.Token) → Except ParseError (Parsed Item toks.length)}
    (hOpen : opener parseLet (.word k) = .taking read) (hExprs : ExprsText False parseLet es ts)
    (hPlainRun : NoDefiner es) (ih : Keeps parseLet us) {pending : Pending} {ps : List Lex.Tok}
    {toks : List Lex.Token} {found : List Item}
    (hPending : ExprsText False parseLet pending.exprs ps) (hPlain : NoDefiner pending.exprs)
    (hCodes : codes toks = ts ++ [.word k, .word n] ++ us)
    (hRun : programFrom parseLet pending toks = .ok found) :
    ItemsText False parseLet found (ps ++ (ts ++ [.word k, .word n] ++ us)) := by
  rw [List.append_assoc] at hCodes
  obtain ⟨pending', toks', hCodes', hPending', hPlain', hRun'⟩ :=
    programFrom_run hExprs hPlainRun hCodes hPending hPlain hRun
  obtain ⟨span, rest, hShort, hNext, hRest⟩ := nextCode_of_codes hCodes'
  rw [programFrom.eq_def, hNext] at hRun'
  dsimp only at hRun'
  rw [hOpen] at hRun'
  obtain ⟨p, hp, hRun'⟩ := ok_of_bind hRun'
  obtain ⟨more, hMore, hRun'⟩ := ok_of_bind hRun'
  obtain rfl := Except.ok.inj hRun'
  obtain ⟨n', hName, hText, hNot⟩ := taking_text hOpen hp hPending' hPlain'
  rw [hRest] at hName
  obtain ⟨hEq, hBehind⟩ := List.cons.inj hName
  obtain rfl := Lex.Tok.word.inj hEq
  have hNone : NoDefiner Pending.empty.exprs := fun e he => by cases he
  have hItems : ItemsText False parseLet more ([] ++ us) := ih .nil hNone hBehind.symm hMore
  have hAll := ItemsText.cons hText hItems fun c hEq => absurd hEq (hNot c)
  simpa using hAll

theorem keeps_collection {kind : CollectionKind} {k n raw : String} {v : Int}
    {base : Lex.NumBase} {us : List Lex.Tok} (hk : collectionKind (lower k) = some kind)
    (hExact : v ≤ u32Max) (ih : Keeps parseLet us) {pending : Pending} {ps : List Lex.Tok}
    {toks : List Lex.Token} {found : List Item}
    (hPending : ExprsText False parseLet pending.exprs ps) (hPlain : NoDefiner pending.exprs)
    (hCodes : codes toks = [.int v base raw, .word k, .word n] ++ us)
    (hRun : programFrom parseLet pending toks = .ok found) :
    ItemsText False parseLet found (ps ++ ([.int v base raw, .word k, .word n] ++ us)) := by
  have hInt : ExprsText False parseLet [.lit (.int v noSpan)] [.int v base raw] := .cons .int .nil
  have hPlainInt : NoDefiner [.lit (.int v noSpan)] := by
    intro e he name span hEq
    rw [List.mem_singleton.mp he] at hEq
    cases hEq
  obtain ⟨pending', toks', hCodes', hPending', hPlain', hRun'⟩ :=
    programFrom_run hInt hPlainInt hCodes hPending hPlain hRun
  obtain ⟨span, rest, hShort, hNext, hRest⟩ := nextCode_of_codes hCodes'
  rw [programFrom.eq_def, hNext] at hRun'
  dsimp only at hRun'
  rw [opener_collection hk] at hRun'
  obtain ⟨p, hp, hRun'⟩ := ok_of_bind hRun'
  obtain ⟨more, hMore, hRun'⟩ := ok_of_bind hRun'
  obtain rfl := Except.ok.inj hRun'
  unfold collectionDefinition at hp
  obtain ⟨size, hSize, hp⟩ := ok_of_bind hp
  obtain ⟨name, hName, hp⟩ := ok_of_bind hp
  obtain rfl := Except.ok.inj hp
  obtain ⟨rfl, hBehind⟩ := nameAfter_keeps hName hRest
  obtain ⟨us', v', base', raw', hEq, hInit, hv, hCount⟩ := collectionSize_text hSize hPending'
  obtain ⟨rfl, hLast⟩ := List.append_inj' hEq rfl
  obtain ⟨rfl, rfl, rfl⟩ := Lex.Tok.int.inj (List.cons.inj hLast).1
  have hNone : NoDefiner pending'.pop.flushed.exprs := by
    rw [flushed_exprs]
    exact fun e he => by cases he
  have hEmpty : ExprsText False parseLet pending'.pop.flushed.exprs [] := by
    rw [flushed_exprs]
    exact .nil
  have hItems : ItemsText False parseLet more ([] ++ us) := ih hEmpty hNone hBehind hMore
  have hOne : ItemText False parseLet
      (.collection ⟨name.value.text, name.value.span, kind, size.1,
        ⟨size.2.start, name.value.span.stop⟩⟩)
      [.int v base raw, .word k, .word name.value.text] :=
    .collection hk hv hCount (.inr hExact)
  have hPop : NoDefiner pending'.pop.exprs := fun e he => hPlain' e ((List.dropLast_sublist _).subset he)
  exact pendingItems_text hInit hPop (.cons hOne hItems fun c hEq => by cases hEq)

/-- Items that a sentence has been read from keep their tokens when the stream is parsed. -/
theorem itemsText_keeps {items : List Item} {ts : List Lex.Tok}
    (h : ItemsText False parseLet items ts) : Keeps parseLet ts := by
  -- on the sentence; `pending` is the run of expressions the parser holds in front of it
  induction h with
  | nil =>
    intro pending ps toks found hPending hPlain hCodes hRun
    have hItems : ItemsText False parseLet (pending.items ++ []) (ps ++ []) :=
      pendingItems_text hPending hPlain .nil
    have hNext : nextCode toks = none := by
      cases hNext : nextCode toks with
      | none => rfl
      | some p =>
        have hFirst := nextCode_codes hNext
        rw [hCodes] at hFirst
        cases hFirst
    rw [programFrom.eq_def, hNext] at hRun
    obtain rfl := Except.ok.inj hRun
    rw [List.append_nil] at hItems
    exact hItems
  | @cons item items ts us hItem hItems hGreedy ih =>
    intro pending ps toks found hPending hPlain hCodes hRun
    cases hItem with
    -- no opener among them: the run is only added to `pending`
    | topLevel hNe hExprs hPlainRun =>
      obtain ⟨pending', toks', hCodes', hPending', hPlain', hRun'⟩ :=
        programFrom_run hExprs hPlainRun hCodes hPending hPlain hRun
      rw [← List.append_assoc]
      exact ih hPending' hPlain' hCodes' hRun'
    | @definition k d hs bs hk hBody hColon hPlainBody =>
      refine keeps_flush (opener_lower hk (by decide)) (fun {span rest p} hp hRest => ?_) ih hPending
        hPlain hCodes hRun
      have hText : codes rest = .word d.name :: (hs ++ (bs ++ .word ";" :: us)) := by
        rw [hRest]
        simp
      exact colonDefinition_keeps hp hk hBody hColon (fun hSome => by simp [hPlainBody] at hSome) hText
    | @template k t locals body hs bs hk hBody hColon hParts hDrop =>
      refine keeps_flush (opener_lower hk (by decide)) (fun {span rest p} hp hRest => ?_) ih hPending
        hPlain hCodes hRun
      -- a template keeps its tokens only if the words it drops are none
      have hText : codes rest = .word t.name :: (hs ++ (bs ++ .word ";" :: us)) := by
        rw [hRest]
        simp
      exact colonDefinition_keeps hp hk hBody hColon (fun _ => hDrop.resolve_left id) hText
    | variable_ hk =>
      refine keeps_flush (opener_lower hk (by decide)) (fun {span rest p} hp hRest => ?_) ih hPending
        hPlain hCodes hRun
      obtain ⟨name, hName, rfl⟩ := ok_of_map hp
      obtain ⟨hEq, hBehind⟩ := nameAfter_keeps hName hRest
      rw [← hEq]
      exact ⟨.variable_ (v := ⟨name.value.text, name.value.span, _⟩) hk, hBehind⟩
    | needs hk =>
      refine keeps_flush (opener_lower hk (by decide)) (fun {span rest p} hp hRest => ?_) ih hPending
        hPlain hCodes hRun
      obtain ⟨name, hName, rfl⟩ := ok_of_map hp
      obtain ⟨rfl, hBehind⟩ := nameAfter_keeps hName hRest
      exact ⟨.needs hk, hBehind⟩
    | create hk hRuns =>
      refine keeps_flush (opener_lower hk (by decide)) (fun {span rest p} hp hRest => ?_) ih hPending
        hPlain hCodes hRun
      -- `hGreedy`: the sentence takes every `,` run, as the parser does
      exact createDefinition_keeps hp hk hRuns (hGreedy _ rfl) hRest
    | collection hk hv hCount hExact =>
      -- the size is the last literal of `pending`, which the parser takes back
      exact keeps_collection hk (hExact.resolve_left id) ih hPending hPlain hCodes hRun
    | @constant k c exprs ts hk hNe hExprs hPlainRun hValue =>
      have hOpen : opener parseLet (.word k) = .taking (constantDefinition c.flavour) := by
        cases hFlavour : c.flavour with
        | cell =>
          rw [hFlavour] at hk
          exact opener_lower hk (by decide)
        | float =>
          rw [hFlavour] at hk
          exact opener_lower hk (by decide)
      exact keeps_taking hOpen hExprs hPlainRun ih hPending hPlain hCodes hRun
    | value hk hNe hExprs hPlainRun =>
      exact keeps_taking (opener_lower hk (by decide)) hExprs hPlainRun ih hPending hPlain hCodes hRun
    | class_ hk hParent hSlots =>
      refine keeps_flush (opener_lower hk (by decide)) (fun {span rest p} hp hRest => ?_) ih hPending
        hPlain hCodes hRun
      refine classDefinition_keeps hp hk hParent hSlots ?_
      rw [hRest]
      simp
    | generic hk =>
      refine keeps_flush (opener_lower hk (by decide)) (fun {span rest p} hp hRest => ?_) ih hPending
        hPlain hCodes hRun
      unfold genericDeclaration at hp
      obtain ⟨name, hName, hp⟩ := ok_of_bind hp
      obtain ⟨effect, hEffect, hp⟩ := ok_of_bind hp
      obtain rfl := Except.ok.inj hp
      obtain ⟨hEq, hBehind⟩ := nameAfter_keeps hName hRest
      rw [requiredEffect_codes hEffect] at hBehind
      rw [← hEq]
      exact ⟨.generic (g := ⟨name.value.text, name.value.span, effect.value, _⟩) hk, hBehind⟩
    | @method k m hs bs hk hBody =>
      have hOpen : ∃ keyword, opener parseLet (.word k) =
          .flushing fun span => methodDefinition parseLet span keyword m.kind := by
        cases hKind : m.kind with
        | primary =>
          rw [hKind] at hk
          exact ⟨_, opener_lower hk (by decide)⟩
        | before =>
          rw [hKind] at hk
          exact ⟨_, opener_lower hk (by decide)⟩
        | after =>
          rw [hKind] at hk
          exact ⟨_, opener_lower hk (by decide)⟩
      obtain ⟨keyword, hOpen⟩ := hOpen
      refine keeps_flush hOpen (fun {span rest p} hp hRest => ?_) ih hPending hPlain hCodes hRun
      have hText : codes rest = .word m.genericName :: (hs ++ (bs ++ .word ";" :: us)) := by
        rw [hRest]
        simp
      exact methodDefinition_keeps hp hk hBody hText

/-- The program that is parsed reads back as the tokens it was parsed from exactly when they are a
sentence that nothing is dropped from. -/
theorem parse_keeps {toks : List Lex.Token} {prog : Program} (h : parse parseLet toks = .ok prog) :
    ItemsText False parseLet prog.items (codes toks) ↔
      ∃ items, ItemsText False parseLet items (codes toks) := by
  constructor
  · exact fun hText => ⟨prog.items, hText⟩
  · rintro ⟨items, hText⟩
    obtain ⟨found, hFound, rfl⟩ := ok_of_map h
    have hNone : NoDefiner Pending.empty.exprs := fun e he => by cases he
    exact itemsText_keeps hText .nil hNone rfl hFound

end

theorem parse_keeps_loopAndCase :
    ∃ prog, parse (fun _ => .error "") (printedToks "f" loopAndCase) = .ok prog ∧
      (ItemsText False (fun _ => .error "") prog.items (codes (printedToks "f" loopAndCase)) ↔
        ∃ items, ItemsText False (fun _ => .error "") items (codes (printedToks "f" loopAndCase))) := by
  have hOk : (parse (fun _ => .error "") (printedToks "f" loopAndCase)).isOk = true := by
    decide +kernel
  cases h : parse (fun _ => .error "") (printedToks "f" loopAndCase) with
  | error e =>
    rw [h] at hOk
    cases hOk
  | ok prog => exact ⟨prog, rfl, parse_keeps h⟩

/-- A CASE of an explicit default alone has no more than its own tokens. -/
theorem defaultOnly_length {parseLet : String → Except String LetLang.LetForm} {es : List Expr}
    {ts : List Lex.Tok}
    (h : bareExprs es = [.caseOf [] (some [.lit (.int 2 noSpan)]) noSpan])
    (hText : ExprsText False parseLet es ts) : ts.length ≤ 4 := by
  have hLit : ∀ {l : Expr} {us : List Lex.Tok}, bareExpr l = .lit (.int 2 noSpan) →
      ExprText False parseLet l us → us.length = 1 := by
    intro l us hl hTextLit
    cases hTextLit with
    | int => rfl
    | caseOf =>
      rw [bareExpr_caseOf] at hl
      cases hl
    | _ => cases hl
  have hDefault : ∀ {default : List Expr} {us : List Lex.Tok},
      bareExprs default = [.lit (.int 2 noSpan)] → ExprsText False parseLet default us →
        us.length = 1 := by
    intro default us hd hTextDefault
    cases hTextDefault with
    | nil => cases hd
    | cons hHead hTail =>
      obtain ⟨hl, hRest⟩ := List.cons.inj hd
      obtain rfl := bareExprs_nil hRest
      cases hTail
      rw [List.append_nil]
      exact hLit hl hHead
  cases hText with
  | nil => cases h
  | cons hHead hTail =>
    obtain ⟨hCase, hRest⟩ := List.cons.inj h
    obtain rfl := bareExprs_nil hRest
    cases hTail
    rw [List.append_nil]
    cases hHead with
    | caseOf hk hText =>
      rw [bareExpr_caseOf] at hCase
      obtain ⟨hArms, hSome, -⟩ := Expr.caseOf.inj hCase
      cases hText with
      | arm => cases hArms
      | endcase => cases hSome
      | implicit hk hNe hTextDefault =>
        have hOne := hDefault (Option.some.inj hSome) hTextDefault
        simp [hOne]
      | default hw hk hDrop hDropped hTextDefault =>
        have hOne := hDefault (Option.some.inj hSome) hTextDefault
        obtain rfl := hDrop.resolve_left id
        cases hDropped
        simp [hOne]
    | _ => cases hCase

def caseWithLead : List Lex.Token :=
  [.word ":", .word "f", .word "case", .int 1 .decimal "1", .word "default", .int 2 .decimal "2",
    .word "endcase", .word ";"].map fun t => ⟨.code t, noSpan⟩

/-- The code in front of an explicit default is not in the program that is read. -/
theorem parse_not_keeps :
    ¬ ∀ (toks : List Lex.Token) (prog : Program), parse (fun _ => .error "") toks = .ok prog →
      ItemsText False (fun _ => .error "") prog.items (codes toks) := by
  intro hAll
  let parseLet : String → Except String LetLang.LetForm := fun _ => .error ""
  let default : List Expr := [.lit (.int 2 noSpan)]
  have hOne : ExprsText True parseLet [.lit (.int 1 noSpan)] [.int 1 .decimal "1"] := .cons .int .nil
  have hTwo : ExprsText True parseLet default [.int 2 .decimal "2"] := .cons .int .nil
  have hBody : ExprsText True parseLet [.caseOf [] (some default) noSpan]
      [.word "case", .int 1 .decimal "1", .word "default", .int 2 .decimal "2", .word "endcase"] :=
    .cons (.caseOf (by decide) (.default (.inl (by decide)) (by decide) (.inl trivial) hOne hTwo)) .nil
  have hColon : NoColon [.caseOf [] (some default) noSpan] := by
    intro e he span hEq
    rw [List.mem_singleton.mp he] at hEq
    cases hEq
  have hNone : HeadText True ([] : List LocalDecl) [] := .none
  have hToks : Behind True [.word ":", .word "f", .word "case", .int 1 .decimal "1",
    .word "default", .int 2 .decimal "2", .word "endcase", .word ";"] caseWithLead :=
    commentFree_of_kinds rfl
  obtain ⟨d, hParse, hName, -, hLocals, hBare⟩ :=
    parse_colon hNone hBody hColon (fun _ => by simp) hToks
  have hPlain : templateParts d.body = none := by
    have hSome := templateParts_bare hBare
    cases hParts : templateParts d.body with
    | none => rfl
    | some parts =>
      rw [hParts] at hSome
      cases hSome
  have hItem : colonItem d = .definition d := by
    unfold colonItem
    rw [hPlain]
  have hText := hAll _ _ hParse
  rw [hItem] at hText
  have hLength : (codes caseWithLead).length = 8 := by decide
  generalize codes caseWithLead = all at hText hLength
  cases hText with
  | cons hDefinition hEnd =>
    cases hEnd
    cases hDefinition with
    | @definition k _ hs bs hk hBody hColon hPlain =>
      have hNames : d.locals = [] := List.map_eq_nil_iff.mp hLocals
      have hNoHead : hs = [] := by
        have hHead := hBody.head
        rw [hNames] at hHead
        cases hHead with
        | none => rfl
        | block hNames hDrop => exact absurd rfl (hDrop.resolve_left id)
      have hShort := defaultOnly_length hBare hBody.exprs
      simp [hNoHead] at hLength
      omega

end FactorForth.Correctness
