import FactorForth.Correctness.OwnTargets
import FactorForth.Correctness.LatestDefinition
import FactorForth.Correctness.WordNames
import FactorForth.Correctness.Inclusion
import FactorForth.Correctness.Sentences

/-! DOES> bodies. The body of an instance is written by a translation of its own, which knows a few names;
the meaning of its words is what the resolver gave them where the template was defined. -/

namespace FactorForth.Correctness
open FactorForth.Library FactorForth.Compiler

/-! One element of a body. -/

/-- The text of a token that is a word. -/
def wordText : Tok → Option String
  | .word t => some t.toFactorToken
  | .name s => some s
  | _ => none

/-- The token has the meaning of the element: a word is the one the resolver finds for the name, other
than address addition for `+`, and anything else is written as in a colon definition. -/
def Means (known : Dict String Span) (r : Sema) (e : Expr) (tok : Tok) : Prop :=
  match e with
  | .wordRef name _ =>
    if name = "+" then tok = runtimeWord "nf-addr+"
    else ∃ t, Scope.target ⟨known, [], []⟩ name = some t ∧ wordText tok = some t.toFactorToken
  | e => emitExpr r e = [tok]

/-- Builtins that Factor has under the same name. -/
def sameNamed : List String :=
  ["dup", "drop", "swap", "over", "rot", "nip", "tuck", "-", "*", "abs", "min", "max", "2dup", "2drop",
    "-rot"]

/-- Builtins that `forth.runtime` has under the same name, among those that get its prefix. -/
def runtimeNamed : List String :=
  ["cells", "chars", "floats", "cell+", "char+", "@", "c@", "f@", "type", "cmove", "fill", "bl"]

/-- A number, `+`, or a builtin written by its own name that no user word hides. -/
def DoesPlain (known : Dict String Span) : Expr → Prop
  | .lit (.int _ _) => True
  | .lit (.float _ _) => True
  | .wordRef name _ => name = "+" ∨
      (name ∈ sameNamed ∨ lower name ∈ runtimeNamed) ∧ Dict.contains known (lower name) = false
  | _ => False

/-- A builtin whose token is its own name is in the list; the byte sizes rule out most of the others. -/
theorem builtin_spelt : ∀ p ∈ builtinTable, p.2.toFactorToken.utf8ByteSize ≠ p.1.utf8ByteSize ∨
    (p.2.toFactorToken = p.1 ∧ (p.1 = "+" ∨ p.1 ∈ sameNamed)) ∨ lower p.2.toFactorToken ≠ p.1 := by
  decide +kernel

theorem prefixed_spelt : ∀ n ∈ doesPrefixed, n ∈ runtimeNamed ∨
    (builtinTable.lookup n).map Target.toFactorToken ≠ some ("forth.runtime:" ++ n) := by
  decide +kernel

theorem sameNamed_builtin : ∀ n ∈ sameNamed, doesPrefixed.contains (lower n) = false ∧
    (builtinTable.lookup (lower n)).map Target.toFactorToken = some n := by
  decide +kernel

theorem runtimeNamed_builtin : ∀ n ∈ runtimeNamed, doesPrefixed.contains n = true ∧
    (builtinTable.lookup n).map Target.toFactorToken = some ("forth.runtime:" ++ n) := by
  decide +kernel

theorem utf8Size_toLower (c : Char) : c.toLower.utf8Size = c.utf8Size := by
  by_cases h : c.val ≥ 'A'.val ∧ c.val ≤ 'Z'.val
  · have hHigh : c.val ≤ 90 := h.2
    have hOne : ∀ d : Char, d.val ≤ 127 → d.utf8Size = 1 := fun d hd => if_pos hd
    rw [hOne c (by grind), hOne c.toLower (by rw [toLower_val h]; grind)]
  · rw [toLower_of_not_upper h]

theorem utf8ByteSize_lower (s : String) : (lower s).utf8ByteSize = s.utf8ByteSize := by
  have hList : ∀ cs : List Char,
      (String.ofList (cs.map Char.toLower)).utf8ByteSize = (String.ofList cs).utf8ByteSize := by
    intro cs
    induction cs with
    | nil => rfl
    | cons c cs ih =>
      rw [List.map_cons, String.ofList_cons, String.ofList_cons, String.utf8ByteSize_append,
        String.utf8ByteSize_append, ih, String.utf8ByteSize_singleton, String.utf8ByteSize_singleton,
        utf8Size_toLower]
  rw [lower, hList, String.ofList_toList]

theorem runtimeWord_text (n : String) : wordText (runtimeWord n) = some ("forth.runtime:" ++ n) := by
  show some ("forth.runtime" ++ ":" ++ n) = _
  rfl

/-- A builtin is written with its own token exactly when it is one of the two lists. -/
theorem builtin_means {name : String} (hPlus : name ≠ "+") :
    (∃ t, builtinTable.lookup (lower name) = some t ∧
      wordText (emitDoesWord name) = some t.toFactorToken) ↔
      name ∈ sameNamed ∨ lower name ∈ runtimeNamed := by
  constructor
  · rintro ⟨t, hLookup, hText⟩
    unfold emitDoesWord at hText
    by_cases hPrefixed : doesPrefixed.contains (lower name) = true
    · rw [if_pos hPrefixed, runtimeWord_text] at hText
      rcases prefixed_spelt _ (List.contains_iff_mem.mp hPrefixed) with hIn | hOther
      · exact .inr hIn
      · rw [hLookup] at hOther
        exact absurd hText.symm hOther
    · rw [if_neg hPrefixed] at hText
      have hToken : name = t.toFactorToken := Option.some.inj hText
      rcases builtin_spelt _ (Dict.mem_of_lookup hLookup) with hSize | ⟨hSame, hNamed⟩ | hOther
      · rw [utf8ByteSize_lower, ← hToken] at hSize
        exact absurd rfl hSize
      · have hName : name = lower name := hToken.trans hSame
        rw [← hName] at hNamed
        exact .inl (hNamed.resolve_left hPlus)
      · rw [← hToken] at hOther
        exact absurd rfl hOther
  · intro hNamed
    have hOne : ∀ token, (builtinTable.lookup (lower name)).map Target.toFactorToken = some token →
        wordText (emitDoesWord name) = some token →
        ∃ t, builtinTable.lookup (lower name) = some t ∧
          wordText (emitDoesWord name) = some t.toFactorToken := by
      intro token hToken hText
      obtain ⟨t, hLookup, rfl⟩ := Option.map_eq_some_iff.mp hToken
      exact ⟨t, hLookup, hText⟩
    rcases hNamed with hIn | hIn
    · obtain ⟨hPrefixed, hToken⟩ := sameNamed_builtin name hIn
      refine hOne name hToken ?_
      rw [emitDoesWord, hPrefixed]
      rfl
    · obtain ⟨hPrefixed, hToken⟩ := runtimeNamed_builtin _ hIn
      refine hOne _ hToken ?_
      rw [emitDoesWord, hPrefixed]
      exact runtimeWord_text _

/-- The word of a user is longer than the name. -/
theorem userName_longer (n : String) : n.utf8ByteSize < (factorUserName n).utf8ByteSize := by
  rw [factorUserName_safe, String.utf8ByteSize_append]
  rcases safeName_cases n with hSame | hRenamed
  · rw [hSame]
    exact Nat.lt_add_of_pos_left (by decide)
  · have hLonger : ∀ p ∈ renamedPairs, p.1.utf8ByteSize < "z-".utf8ByteSize + p.2.utf8ByteSize := by
      decide
    exact hLonger _ hRenamed

theorem user_not_means (name : String) :
    wordText (emitDoesWord name) ≠ some (factorUserName (lower name)) := by
  intro hText
  unfold emitDoesWord at hText
  split at hText
  · rw [runtimeWord_text] at hText
    have hChars := congrArg (fun s => s.toList.head?) (Option.some.inj hText)
    simp [factorUserName, userNamePrefix] at hChars
  · have hToken : name = factorUserName (lower name) := Option.some.inj hText
    have hLonger := userName_longer (lower name)
    rw [← hToken, utf8ByteSize_lower] at hLonger
    exact absurd hLonger (Nat.lt_irrefl _)

theorem caseChain_last (r : Sema) (arms : List (CaseArm Expr)) {base : List Tok} {p : Prim}
    (h : base.getLast? = some (.prim p)) :
    ∃ q, (emitCaseChain r arms base).getLast? = some (.prim q) := by
  cases arms with
  | nil =>
    rw [emitCaseChain]
    exact ⟨p, h⟩
  | cons arm arms =>
    obtain ⟨matchExpr, body, span⟩ := arm
    rw [emitCaseChain, List.getLast?_append]
    exact ⟨.ifQ, rfl⟩

/-- An element is emitted with its meaning exactly when it is plain. -/
theorem does_means (known : Dict String Span) (r : Sema) (e : Expr) :
    Means known r e (emitDoesExpr e) ↔ DoesPlain known e := by
  match e with
  | .wordRef name span =>
    simp only [Means, DoesPlain, emitDoesExpr]
    by_cases hPlus : name = "+"
    · simp [hPlus]
    · rw [if_neg hPlus, if_neg hPlus]
      simp only [hPlus, false_or]
      cases hKnown : Dict.contains known (lower name) with
      | false =>
        have hTarget : Scope.target ⟨known, [], []⟩ name = builtinTable.lookup (lower name) := by
          simp [Scope.target, hKnown]
        rw [hTarget, builtin_means hPlus]
        simp
      | true =>
        have hTarget : Scope.target ⟨known, [], []⟩ name =
            some (.userDefined (factorUserName (lower name))) := by
          simp [Scope.target, hKnown]
        rw [hTarget]
        constructor
        · rintro ⟨t, ht, hText⟩
          obtain rfl := Option.some.inj ht
          exact absurd hText (user_not_means name)
        · rintro ⟨-, hBad⟩
          cases hBad
  | .lit (.int value span) => exact ⟨fun _ => trivial, fun _ => rfl⟩
  | .lit (.float value span) => exact ⟨fun _ => trivial, fun _ => rfl⟩
  | .lit (.str value kind span) =>
    refine ⟨fun h => ?_, fun h => h.elim⟩
    cases kind <;> simp [Means, emitExpr, emitLiteral, emitDoesExpr] at h
  | .caseOf arms default span =>
    refine ⟨fun h => ?_, fun h => h.elim⟩
    have hLast : ∃ p, (emitExpr r (.caseOf arms default span)).getLast? = some (.prim p) := by
      cases default with
      | none => exact caseChain_last r arms (List.getLast?_singleton)
      | some default => exact caseChain_last r arms List.getLast?_concat
    obtain ⟨p, hLast⟩ := hLast
    rw [show emitExpr r (.caseOf arms default span) = [.name "/* deferred-does-expr */"] from h] at hLast
    cases hLast
  | .locals names span =>
    refine ⟨fun h => ?_, fun h => h.elim⟩
    have hIn : Tok.name "/* deferred-does-expr */" ∈ emitLocals names := by
      rw [show emitLocals names = [.name "/* deferred-does-expr */"] from h]
      exact List.mem_singleton_self _
    obtain ⟨l, -, hBad⟩ := List.mem_map.mp hIn
    cases hBad
  | .ifElse _ none _ | .ifElse _ (some _) _ | .beginUntil _ _ | .beginAgain _ _
  | .beginWhileRepeat _ _ _ | .doLoop _ _ _ _ | .tick _ _ | .toValue _ _ | .see _ _
  | .letForm _ _ =>
    refine ⟨fun h => ?_, fun h => h.elim⟩
    simp [Means, emitExpr, emitDoesExpr] at h

/-! Where the body of an instance comes from. -/

/-- A lowering of ?DUP changes nothing about the elements being plain. -/
theorem qdupSeq_plain (known : Dict String Span) (body : List Expr) : ∀ n : Nat,
    (∀ e ∈ (qdupSeq body n).1, DoesPlain known e) ↔ ∀ e ∈ body, DoesPlain known e := by
  induction body with
  | nil => exact fun n => Iff.rfl
  | cons e es ih =>
    intro n
    rw [qdupSeq.eq_def]
    dsimp only
    split
    · -- both bodies have an IF
      refine ⟨fun h => ?_, fun h => ?_⟩
      · exact (h _ (List.mem_cons_of_mem _ List.mem_cons_self)).elim
      · exact (h _ (List.mem_cons_of_mem _ List.mem_cons_self)).elim
    · have hHead : DoesPlain known (qdupExpr e n).1 ↔ DoesPlain known e := by
        cases e with
        | ifElse _ elseBody _ => cases elseBody <;> exact Iff.rfl
        | caseOf _ default _ => cases default <;> exact Iff.rfl
        | _ => exact Iff.rfl
      rw [List.forall_mem_cons, List.forall_mem_cons, hHead, ih]

def Item.template? : Item → Option TemplateDef
  | .template t => some t
  | _ => none

def insertTemplate (ts : Dict String TemplateDef) (t : TemplateDef) : Dict String TemplateDef :=
  Dict.insert ts (lower t.name) t

theorem foldl_templates (items : List Item) (prior : Dict String TemplateDef) :
    items.foldl (fun ts item =>
      match item with
      | .template t => Dict.insert ts (lower t.name) t
      | _ => ts) prior = (items.filterMap Item.template?).foldl insertTemplate prior := by
  induction items generalizing prior with
  | nil => rfl
  | cons item items ih =>
    cases item with
    | template t => exact ih _
    | _ => exact ih _

theorem expandTemplates_eq (items : List Item) (prior : Dict String TemplateDef) :
    (expandTemplates ⟨items⟩ prior).items =
      if ((items.filterMap Item.template?).foldl insertTemplate prior).isEmpty then items
      else items.flatMap fun
        | .topLevel exprs _ =>
          expandToplevel ((items.filterMap Item.template?).foldl insertTemplate prior) [] exprs
        | other => [other] := by
  rw [← foldl_templates]
  exact apply_ite Program.items _ _ _

theorem collectTemplates_eq (items : List Item) :
    collectTemplates items = (items.filterMap Item.template?).foldl insertTemplate [] :=
  foldl_templates items []

/-- The template as the passes before resolution leave it. -/
def LoweredTemplate (t t' : TemplateDef) : Prop :=
  t'.name = t.name ∧ ∃ n, t'.doesBody = (qdupSeq t.doesBody n).1

theorem expandTemplates_templates (items : List Item) (prior : Dict String TemplateDef) :
    (expandTemplates ⟨items⟩ prior).items.filterMap Item.template? =
      items.filterMap Item.template? := by
  rw [expandTemplates_eq]
  split
  · rfl
  · rw [List.filterMap_flatMap, List.filterMap_eq_flatMap_toList]
    apply List.flatMap_congr
    intro item _
    cases item with
    | topLevel exprs span =>
      apply List.filterMap_eq_nil_iff.mpr
      exact expandToplevel_items (fun _ _ => rfl) (fun _ _ _ _ _ _ => rfl) [] exprs
    | _ => rfl

theorem lowerQdupItems_templates (items : List Item) : ∀ n : Nat,
    List.Forall₂ LoweredTemplate (items.filterMap Item.template?)
      ((lowerQdupItems items n).1.filterMap Item.template?) := by
  induction items with
  | nil => exact fun _ => .nil
  | cons item items ih =>
    intro n
    cases item with
    | template t => exact .cons ⟨rfl, _, rfl⟩ (ih _)
    | constant c =>
      rcases c with ⟨name, nameSpan, value, span, flavour⟩
      cases value <;> exact ih _
    | _ => exact ih _

/-- The passes in front of resolution keep the templates, and give each instance the body of a
template. -/
theorem prepare_templates (source : Program) (prior : Dict String TemplateDef) (synth : Nat) :
    List.Forall₂ LoweredTemplate (source.items.filterMap Item.template?)
      ((prepare source prior synth).1.1.items.filterMap Item.template?) := by
  have hLowered := lowerQdupItems_templates (expandTemplates source prior).items synth
  have hExpanded : (expandTemplates source prior).items.filterMap Item.template? =
      source.items.filterMap Item.template? := expandTemplates_templates source.items prior
  have hRecurse : ∀ items : List Item, (items.map Item.lowerRecurse).filterMap Item.template? =
      items.filterMap Item.template? := by
    intro items
    rw [List.filterMap_map]
    apply List.filterMap_congr
    intro item _
    cases item <;> rfl
  rw [hExpanded] at hLowered
  show List.Forall₂ LoweredTemplate _
    (((lowerQdupItems (expandTemplates source prior).items synth).1.map Item.lowerRecurse).filterMap _)
  rw [hRecurse]
  exact hLowered

/-- The ?DUP pass works item by item. -/
theorem mem_lowerQdupItems {item : Item} {items : List Item} : ∀ {n : Nat},
    item ∈ (lowerQdupItems items n).1 → ∃ own ∈ items, ∃ k, item = (own.lowerQdup k).1 := by
  induction items with
  | nil => exact fun h => nomatch h
  | cons own items ih =>
    intro n h
    rcases List.mem_cons.mp h with rfl | hTail
    · exact ⟨own, List.mem_cons_self, n, rfl⟩
    · obtain ⟨other, hOther, hEq⟩ := ih hTail
      exact ⟨other, List.mem_cons_of_mem _ hOther, hEq⟩

theorem lowerQdup_instance {ti : TemplateInstanceDef} {own : Item} {k : Nat}
    (h : (own.lowerQdup k).1 = .templateInstance ti) :
    ∃ ti', own = .templateInstance ti' ∧ ti = { ti' with doesBody := (qdupSeq ti'.doesBody k).1 } := by
  cases own with
  | templateInstance ti' => exact ⟨ti', rfl, (Item.templateInstance.inj h).symm⟩
  | constant c =>
    rcases c with ⟨name, nameSpan, value, span, flavour⟩
    cases value <;> cases h
  | _ => cases h

theorem lowerQdupItems_instance {ti : TemplateInstanceDef} {items : List Item} {n : Nat}
    (h : .templateInstance ti ∈ (lowerQdupItems items n).1) :
    ∃ ti' m, .templateInstance ti' ∈ items ∧ ti.templateName = ti'.templateName ∧
      ti.doesBody = (qdupSeq ti'.doesBody m).1 := by
  obtain ⟨own, hOwn, k, hEq⟩ := mem_lowerQdupItems h
  obtain ⟨ti', rfl, rfl⟩ := lowerQdup_instance hEq.symm
  exact ⟨ti', k, hOwn, rfl, rfl⟩

theorem prepare_instance {source : Program} {prior : Dict String TemplateDef} {synth : Nat}
    (hSource : ∀ ti, .templateInstance ti ∉ source.items) {ti : TemplateInstanceDef}
    (h : .templateInstance ti ∈ (prepare source prior synth).1.1.items) :
    ∃ k t m, ((source.items.filterMap Item.template?).foldl insertTemplate prior).lookup k = some t ∧
      ti.templateName = t.name ∧ ti.doesBody = (qdupSeq t.doesBody m).1 := by
  obtain ⟨item, hItem, hEq⟩ := List.mem_map.mp h
  have hInstance : item = .templateInstance ti := by
    cases item with
    | templateInstance ti' => exact hEq
    | _ => cases hEq
  rw [hInstance] at hItem
  obtain ⟨ti', m, hIn, hName, hBody⟩ := lowerQdupItems_instance hItem
  rw [expandTemplates_eq] at hIn
  split at hIn
  · exact absurd hIn (hSource ti')
  · obtain ⟨own, hOwn, hIn⟩ := List.mem_flatMap.mp hIn
    cases own with
    | topLevel exprs span =>
      have hMade : ∀ other ∈ expandToplevel ((source.items.filterMap Item.template?).foldl insertTemplate
          prior) [] exprs, ∀ ti, other = .templateInstance ti → ∃ k t,
            ((source.items.filterMap Item.template?).foldl insertTemplate prior).lookup k = some t ∧
              ti.templateName = t.name ∧ ti.doesBody = t.doesBody := by
        apply expandToplevel_items
        · exact fun _ _ _ hBad => nomatch hBad
        · rintro k t ti hLookup hName hBody _ ⟨⟩
          exact ⟨k, t, hLookup, hName, hBody⟩
      obtain ⟨k, t, hLookup, hName', hBody'⟩ := hMade _ hIn ti' rfl
      rw [hBody'] at hBody
      exact ⟨k, t, m, hLookup, hName.trans hName', hBody⟩
    | templateInstance other => exact absurd hOwn (hSource other)
    | _ => cases List.mem_singleton.mp hIn

/-! The table of templates. -/

/-- A table is keyed by the names of its templates. -/
def TemplateKeyed (ts : Dict String TemplateDef) : Prop := ∀ k t, ts.lookup k = some t → lower t.name = k

theorem keyed_nil : TemplateKeyed [] := by
  intro k t hk
  cases hk

theorem foldl_keyed (own : List TemplateDef) {ts : Dict String TemplateDef} (h : TemplateKeyed ts) :
    TemplateKeyed (own.foldl insertTemplate ts) := by
  induction own generalizing ts with
  | nil => exact h
  | cons t own ih =>
    apply ih
    intro k t' hk
    rw [insertTemplate, Dict.lookup_insert] at hk
    split at hk
    · next hName =>
      rw [← Option.some.inj hk]
      exact hName
    · exact h k t' hk

/-- A template is found among the lowered ones of this compile, or in the table from before. -/
def Found (prior ts' : Dict String TemplateDef) (k : String) (t : TemplateDef) : Prop :=
  (∃ t', ts'.lookup k = some t' ∧ LoweredTemplate t t') ∨ (ts'.lookup k = none ∧ prior.lookup k = some t)

theorem foldl_found {prior : Dict String TemplateDef} {own own' : List TemplateDef}
    (hOwn : List.Forall₂ LoweredTemplate own own') {ts ts' : Dict String TemplateDef}
    (h : ∀ k t, ts.lookup k = some t → Found prior ts' k t) {k : String} {t : TemplateDef}
    (hk : (own.foldl insertTemplate ts).lookup k = some t) :
    Found prior (own'.foldl insertTemplate ts') k t := by
  induction hOwn generalizing ts ts' with
  | nil => exact h k t hk
  | @cons t₀ t₀' own own' hLowered hRest ih =>
    refine ih (fun j u hj => ?_) hk
    rw [insertTemplate, Dict.lookup_insert] at hj
    unfold Found
    rw [insertTemplate, Dict.lookup_insert, hLowered.1]
    split at hj
    · obtain rfl := Option.some.inj hj
      exact .inl ⟨t₀', by rw [if_pos ‹_›], hLowered⟩
    · rw [if_neg ‹_›]
      exact h j u hj

/-- An instance of an accepted compile is made from a template of that compile or of the context. -/
def MadeFrom (t : TemplateDef) (ti : TemplateInstanceDef) : Prop :=
  ti.templateName = t.name ∧ ∃ body, (t.doesBody = body ∨ ∃ n, t.doesBody = (qdupSeq body n).1) ∧
    ∃ m, ti.doesBody = (qdupSeq body m).1

theorem madeFrom_plain {t : TemplateDef} {ti : TemplateInstanceDef} (h : MadeFrom t ti)
    (known : Dict String Span) :
    (∀ e ∈ ti.doesBody, DoesPlain known e) ↔ ∀ e ∈ t.doesBody, DoesPlain known e := by
  obtain ⟨-, body, hTemplate, m, hInstance⟩ := h
  rw [hInstance, qdupSeq_plain]
  rcases hTemplate with hSame | ⟨n, hLowered⟩
  · rw [hSame]
  · rw [hLowered, qdupSeq_plain]

section
variable (host : Host) (fs : FileSystem)

theorem parsed_no_instance {contents : String} {items : List Item}
    (h : compileItems host contents = .ok items) (ti : TemplateInstanceDef) :
    .templateInstance ti ∉ items := by
  unfold compileItems at h
  split at h
  · cases h
  · split at h
    · cases h
    · rename_i prog hParse
      obtain rfl := Except.ok.inj h
      intro hIn
      have hText := parse_text hParse
      generalize prog.items = parsed at hIn hText
      generalize codes _ = ts at hText
      induction hText with
      | nil => cases hIn
      | cons hItem _ _ ih =>
        rcases List.mem_cons.mp hIn with rfl | hTail
        · cases hItem
        · exact ih hTail

/-- What holds of every parsed item holds of the merged ones. -/
theorem merged_parsed {P : Item → Prop}
    (hParsed : ∀ contents items, compileItems host contents = .ok items → ∀ item ∈ items, P item)
    (source : String) (ctx : CompileContext) : ∀ item ∈ mergedItems host fs source ctx, P item := by
  unfold mergedItems
  split
  · exact fun item h => nomatch h
  · rename_i items hOwn
    split
    · exact fun item h => nomatch h
    · rename_i merged docs hMerged
      obtain ⟨t, hTree, hSplice, -⟩ := (expands host fs none items ctx.included _).sound _ _ hMerged
      rw [← hSplice]
      exact hTree.fits.splice_parsed hParsed (hParsed _ _ hOwn)

theorem merged_no_instance (source : String) (ctx : CompileContext) (ti : TemplateInstanceDef) :
    .templateInstance ti ∉ mergedItems host fs source ctx := by
  intro hIn
  refine merged_parsed host fs (P := fun item => item ≠ .templateInstance ti) ?_ source ctx _ hIn rfl
  rintro contents parsed hParsed item hItem rfl
  exact parsed_no_instance host hParsed ti hItem

/-- What an accepted compile makes its instances from. -/
theorem analyse_instance {source : String} {ctx : CompileContext} {synth : Nat} {sema : Sema}
    (h : (analyse host fs source ctx synth).result = .ok sema) (hKeyed : TemplateKeyed ctx.templates)
    {ti : TemplateInstanceDef} (hi : .templateInstance ti ∈ sema.program.items) :
    ∃ t, MadeFrom t ti ∧ (sema.templates.lookup (lower ti.templateName)).or
      (ctx.templates.lookup (lower ti.templateName)) = some t := by
  obtain ⟨built, docs, synth', hBuild, rfl⟩ := analyse_build host fs source ctx synth h
  obtain ⟨words, targets, -, -, rfl⟩ := build_ok hBuild
  have hTable : ∀ (resolved : Resolved) slots effects docs,
      ((semaOfResolved resolved slots effects).forSession docs).templates =
        (resolved.program.items.filterMap Item.template?).foldl insertTemplate [] := by
    intro resolved slots effects docs
    show collectTemplates (resolved.program.items.map (Item.lowerExit resolved.wordTargets)) = _
    rw [collectTemplates_eq, List.filterMap_map]
    congr 1
    apply List.filterMap_congr
    intro item _
    cases item <;> rfl
  obtain ⟨item, hItem, hEq⟩ := List.mem_map.mp hi
  have hInstance : item = .templateInstance ti := by
    cases item with
    | templateInstance ti' => exact hEq
    | _ => cases hEq
  rw [hInstance] at hItem
  have hOwn := prepare_templates ⟨mergedItems host fs source ctx⟩ ctx.prior.templates synth
  obtain ⟨k, t, m, hLookup, hName, hBody⟩ :=
    prepare_instance (fun ti => merged_no_instance host fs source ctx ti) hItem
  obtain rfl : lower t.name = k := foldl_keyed _ hKeyed k t hLookup
  rw [hTable, hName]
  have hNone : ∀ j u, ctx.prior.templates.lookup j = some u → Found ctx.prior.templates [] j u :=
    fun j u hj => .inr ⟨rfl, hj⟩
  have hFound := foldl_found hOwn hNone hLookup
  rcases hFound with ⟨t', hOwnTable, hSame, n, hLowered⟩ | ⟨hNone, hPrior⟩
  · refine ⟨t', ⟨hName.trans hSame.symm, t.doesBody, .inr ⟨n, hLowered⟩, m, hBody⟩, ?_⟩
    rw [hOwnTable]
    rfl
  · refine ⟨t, ⟨hName, t.doesBody, .inl rfl, m, hBody⟩, ?_⟩
    rw [hNone]
    exact hPrior

end

/-! A session. -/

/-- An accepted compile: the context it started from, its program as the resolver saw it, and its
model. -/
structure Accepted where
  ctx : CompileContext
  prog : Program
  sema : Sema

/-- The user words that references in an accepted compile may be bound to. -/
def Accepted.known (a : Accepted) : Dict String Span := knownWords a.ctx.prior a.prog

/-- A session, with its accepted compiles, the latest first. -/
structure Transcript where
  ctx : CompileContext
  counters : Counters
  done : List Accepted

namespace Transcript

def start (counters : Counters) : Transcript := ⟨.new, counters, []⟩

def eval (host : Host) (fs : FileSystem) (s : Transcript) (source : String) : Transcript :=
  let compiled := compileInContextWithDiagnostics host fs source s.ctx s.counters
  ⟨compiled.context, compiled.counters,
    (analyse host fs source s.ctx s.counters.synth).result.toOption.toList.map
      (fun sema => ⟨s.ctx, preparedProgram host fs source s.ctx s.counters.synth, sema⟩) ++ s.done⟩

end Transcript

/-- The latest compile that defines a template of the name, with the template. -/
def definer : List Accepted → String → Option (Accepted × TemplateDef)
  | [], _ => none
  | a :: done, k => ((a.sema.templates.lookup k).map (a, ·)).or (definer done k)

/-- The word that reads an instance. -/
def accessor (ti : TemplateInstanceDef) : Line :=
  .colon (mangled ti.name) ⟨["idx"], ["addr"]⟩
    (.symbol ("nf-tmpl-" ++ lower ti.name) :: getGlobal :: emitDoesBody ti.doesBody) true

/-- The instances of a compile are made from the templates defined last under their names. -/
def MadeFromLatest (b : Accepted) (earlier : List Accepted) : Prop :=
  ∀ ti, .templateInstance ti ∈ b.sema.program.items →
    ∃ a t, definer (b :: earlier) (lower ti.templateName) = some (a, t) ∧ MadeFrom t ti

theorem accessor_emitted {sema : Sema} {ti : TemplateInstanceDef}
    (h : .templateInstance ti ∈ sema.program.items) (helper : Nat) :
    accessor ti ∈ (emit sema true helper).1 := by
  have hOwn : accessor ti ∈ Item.declaration sema (auxGenerics sema.program.items) (.templateInstance ti) :=
    List.mem_cons_of_mem _ (List.mem_cons_of_mem _ List.mem_cons_self)
  unfold emit
  simp only [List.mem_append]
  exact .inl (.inl (.inl (.inl (.inr (List.mem_flatMap.mpr ⟨_, h, hOwn⟩)))))

theorem does_body_means (known : Dict String Span) (r : Sema) (body : List Expr) :
    List.Forall₂ (Means known r) body (emitDoesBody body) ↔ ∀ e ∈ body, DoesPlain known e := by
  rw [emitDoesBody, List.forall₂_map_right_iff, List.forall₂_same]
  simp only [does_means]

/-- The templates of a context are those that its session defined last. -/
structure TemplatesOf (s : Transcript) : Prop where
  keyed : TemplateKeyed s.ctx.templates
  defined : ∀ k, s.ctx.templates.lookup k = (definer s.done k).map Prod.snd

section
variable {host : Host} {fs : FileSystem}

theorem templatesOf_eval {s : Transcript} (h : TemplatesOf s) (source : String) :
    TemplatesOf (s.eval host fs source) := by
  unfold Transcript.eval compileInContextWithDiagnostics
  dsimp only
  cases hSema : (analyse host fs source s.ctx s.counters.synth).result with
  | error e => exact ⟨h.keyed, h.defined⟩
  | ok sema =>
    have hTables : ∀ k, (s.ctx.update sema).templates.lookup k =
        (sema.templates.lookup k).or (s.ctx.templates.lookup k) :=
      fun k => Dict.lookup_merge s.ctx.templates sema.templates k
    constructor
    · intro k t hk
      have hk' : (sema.templates.lookup k).or (s.ctx.templates.lookup k) = some t :=
        (hTables k).symm.trans hk
      cases hOwn : sema.templates.lookup k with
      | none =>
        rw [hOwn, Option.none_or] at hk'
        exact h.keyed k t hk'
      | some own =>
        rw [hOwn, Option.some_or] at hk'
        obtain ⟨resolved, docs, rfl⟩ := analyse_built host fs hSema
        have hOwn' : (collectTemplates (_ : List Item)).lookup k = some own := hOwn
        rw [collectTemplates_eq] at hOwn'
        rw [← Option.some.inj hk']
        exact foldl_keyed _ keyed_nil k own hOwn'
    · intro k
      refine (hTables k).trans ?_
      simp only [Except.toOption, Option.toList_some, List.map_cons, List.map_nil, List.cons_append,
        List.nil_append, definer]
      rw [h.defined k]
      cases sema.templates.lookup k <;> rfl

/-- The compile of a step makes its instances from the templates of the context. -/
theorem instances_eval {s : Transcript} (h : TemplatesOf s) (source : String) {b : Accepted}
    {earlier : List Accepted} (hDone : b :: earlier <:+ (s.eval host fs source).done)
    (hOld : b :: earlier <:+ s.done → MadeFromLatest b earlier) : MadeFromLatest b earlier := by
  unfold Transcript.eval at hDone
  dsimp only at hDone
  cases hSema : (analyse host fs source s.ctx s.counters.synth).result with
  | error e =>
    rw [hSema] at hDone
    exact hOld hDone
  | ok sema =>
    rw [hSema] at hDone
    rcases List.suffix_cons_iff.mp hDone with hThis | hEarlier
    · obtain ⟨hb, hRest⟩ := List.cons.inj hThis
      subst hb
      intro ti hti
      obtain ⟨t, hMade, hTable⟩ := analyse_instance host fs hSema h.keyed hti
      have hDefiner : ∃ a, definer (⟨s.ctx, preparedProgram host fs source s.ctx s.counters.synth, sema⟩ ::
          earlier) (lower ti.templateName) = some (a, t) := by
        rw [definer, hRest]
        cases hOwn : sema.templates.lookup (lower ti.templateName) with
        | some own =>
          rw [hOwn, Option.some_or] at hTable
          rw [← Option.some.inj hTable]
          exact ⟨_, rfl⟩
        | none =>
          rw [hOwn, Option.none_or, h.defined] at hTable
          obtain ⟨⟨a, t'⟩, hFound, rfl⟩ := Option.map_eq_some_iff.mp hTable
          exact ⟨a, hFound⟩
      obtain ⟨a, hFound⟩ := hDefiner
      exact ⟨a, t, hFound, hMade⟩
    · exact hOld hEarlier

theorem instances_run (sources : List String) : ∀ {s : Transcript}, TemplatesOf s →
    (∀ b earlier, b :: earlier <:+ s.done → MadeFromLatest b earlier) →
    ∀ b earlier, b :: earlier <:+ (sources.foldl (Transcript.eval host fs) s).done →
      MadeFromLatest b earlier := by
  induction sources with
  | nil => exact fun _ hAll => hAll
  | cons source sources ih =>
    intro s hs hAll
    apply ih (templatesOf_eval hs source)
    intro b earlier hSuffix
    exact instances_eval hs source hSuffix (hAll b earlier)

end

/-- In every session an instance is made from the template defined last under its name, and is written
with the meaning that the resolver gave the template exactly when the body of the template consists of
numbers, `+` and builtins that the emitter calls by their own names and no user word hid. -/
theorem session_doesMeant (host : Host) (fs : FileSystem) (sources : List String) (counters : Counters)
    {b : Accepted} {earlier : List Accepted}
    (h : b :: earlier <:+ (sources.foldl (Transcript.eval host fs) (.start counters)).done)
    {ti : TemplateInstanceDef} (hti : .templateInstance ti ∈ b.sema.program.items) :
    (∀ helper, accessor ti ∈ (emit b.sema true helper).1) ∧
      ∃ a t, definer (b :: earlier) (lower ti.templateName) = some (a, t) ∧ MadeFrom t ti ∧
        (List.Forall₂ (Means a.known b.sema) ti.doesBody (emitDoesBody ti.doesBody) ↔
          ∀ e ∈ t.doesBody, DoesPlain a.known e) := by
  have hStart : TemplatesOf (.start counters) := ⟨keyed_nil, fun _ => rfl⟩
  have hNone : ∀ b earlier, b :: earlier <:+ (Transcript.start counters).done →
      MadeFromLatest b earlier :=
    fun b earlier hSuffix => absurd hSuffix.length_le (Nat.not_succ_le_zero _)
  obtain ⟨a, t, hDefiner, hMade⟩ := instances_run sources hStart hNone b earlier h ti hti
  refine ⟨accessor_emitted hti, a, t, hDefiner, hMade, ?_⟩
  rw [does_body_means, madeFrom_plain hMade]

def isInstance : Item → Bool
  | .templateInstance _ => true
  | _ => false

theorem session_doesMeant_cells :
    ∃ b earlier ti, b :: earlier <:+
        ([": t create cells allot does> swap cells + ;", "3 t x"].foldl (Transcript.eval noLet noFiles)
          (.start .start)).done ∧
      .templateInstance ti ∈ b.sema.program.items ∧
      (∀ helper, accessor ti ∈ (emit b.sema true helper).1) ∧
      ∃ a t, definer (b :: earlier) (lower ti.templateName) = some (a, t) ∧ MadeFrom t ti ∧
        (List.Forall₂ (Means a.known b.sema) ti.doesBody (emitDoesBody ti.doesBody) ↔
          ∀ e ∈ t.doesBody, DoesPlain a.known e) := by
  have hLast : (([": t create cells allot does> swap cells + ;", "3 t x"].foldl
      (Transcript.eval noLet noFiles) (.start .start)).done.head?.map
        fun b => b.sema.program.items.any isInstance) = some true := by
    decide +kernel
  obtain ⟨b, hHead, hAny⟩ := Option.map_eq_some_iff.mp hLast
  obtain ⟨earlier, hDone⟩ := List.head?_eq_some_iff.mp hHead
  obtain ⟨item, hItem, hInstance⟩ := List.any_eq_true.mp hAny
  cases item with
  | templateInstance ti =>
    have hSuffix : b :: earlier <:+ _ := ⟨[], hDone.symm⟩
    exact ⟨b, earlier, ti, hSuffix, hItem, session_doesMeant noLet noFiles _ .start hSuffix hItem⟩
  | _ => cases hInstance

/-- In the body of a template `/` is written as it stands, while a colon definition has `/i`. -/
theorem session_not_doesMeant :
    ¬ ∀ (sources : List String) (b : Accepted) (earlier : List Accepted),
      b :: earlier <:+ (sources.foldl (Transcript.eval noLet noFiles) (.start .start)).done →
      ∀ ti, .templateInstance ti ∈ b.sema.program.items →
      ∀ a t, definer (b :: earlier) (lower ti.templateName) = some (a, t) →
        List.Forall₂ (Means a.known b.sema) ti.doesBody (emitDoesBody ti.doesBody) := by
  intro hAll
  have hSlash : (([": t create allot does> / ; 3 t x"].foldl (Transcript.eval noLet noFiles)
      (.start .start)).done.head?.map fun b => b.sema.program.items.any fun
        | .templateInstance ti => (definer [b] (lower ti.templateName)).isSome &&
            ti.doesBody.any fun
              | .wordRef name _ => decide (name = "/")
              | _ => false
        | _ => false) = some true ∧
      ([": t create allot does> / ; 3 t x"].foldl (Transcript.eval noLet noFiles)
        (.start .start)).done.length = 1 := by
    decide +kernel
  obtain ⟨b, hHead, hAny⟩ := Option.map_eq_some_iff.mp hSlash.1
  obtain ⟨earlier, hDone⟩ := List.head?_eq_some_iff.mp hHead
  obtain rfl : earlier = [] := by
    have hLength := hSlash.2
    rw [hDone, List.length_cons] at hLength
    exact List.length_eq_zero_iff.mp (Nat.succ.inj hLength)
  obtain ⟨item, hItem, hInstance⟩ := List.any_eq_true.mp hAny
  cases item with
  | templateInstance ti =>
    obtain ⟨hSome, hBody⟩ := (Bool.and_eq_true _ _).mp hInstance
    obtain ⟨⟨a, t⟩, hDefiner⟩ := Option.isSome_iff_exists.mp hSome
    have hMeant := hAll _ b [] ⟨[], hDone.symm⟩ ti hItem a t hDefiner
    rw [does_body_means] at hMeant
    obtain ⟨e, he, hName⟩ := List.any_eq_true.mp hBody
    have hPlain := hMeant e he
    cases e with
    | wordRef name span =>
      obtain rfl := of_decide_eq_true hName
      rcases hPlain with hPlus | ⟨hNamed, -⟩
      · exact absurd hPlus (by decide)
      · exact absurd hNamed (by decide)
    | _ => cases hName
  | _ => cases hInstance

end FactorForth.Correctness
