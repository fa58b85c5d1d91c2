import FactorForth.Compiler.EmitItems
import FactorForth.Compiler.ParseItems

/-! The driver of an interactive session: what one compile carries to the next, the inclusion of files,
and the compile itself. -/

namespace FactorForth.Compiler
open FactorForth.Library

/-- What the front end asks of code outside this model: the LET sub-language, and the printing of a
double. -/
structure Host where
  parseLet : String → Except String LetLang.LetForm
  floatText : FloatLit → String

/-- The files that exist, by canonical path, and the path operations of the platform. -/
structure FileSystem where
  files : Dict String String
  canonicalize : String → Option String
  join : String → String → String
  parent : String → Option String
  readError : String → String

def FileSystem.key (fs : FileSystem) (full : String) : String := (fs.canonicalize full).getD full

def FileSystem.readToString (fs : FileSystem) (full : String) : Except String String :=
  match (fs.canonicalize full).bind fun k => fs.files.lookup k with
  | some contents => .ok contents
  | none => .error ("NEEDS: cannot read " ++ full ++ ": " ++ fs.readError full)

/-- What carries across compiles in one session. -/
structure CompileContext where
  userWords : Dict String Span
  userEffects : Dict String Effect
  templates : Dict String TemplateDef
  values : Dict String Span
  classes : Dict String (List String)
  docs : Dict String WordDoc
  included : List String

def CompileContext.new : CompileContext := ⟨[], [], [], [], [], [], []⟩

/-! SEE records. -/

def renderEffect (e : StackEffect) : String :=
  "( " ++ String.join (e.inputs.map fun i => i ++ " ") ++ "-- " ++
    String.join (e.outputs.map fun o => o ++ " ") ++ ")"

/-- The characters behind the first `n` bytes, when these are whole characters. -/
def dropBytes : Nat → List Char → Option (List Char)
  | 0, cs => some cs
  | _, [] => none
  | n, c :: cs => if c.utf8Size ≤ n then dropBytes (n - c.utf8Size) cs else none

def takeBytes : Nat → List Char → Option (List Char)
  | 0, _ => some []
  | _, [] => none
  | n, c :: cs =>
    if c.utf8Size ≤ n then (takeBytes (n - c.utf8Size) cs).map (c :: ·) else none

def trim (cs : List Char) : List Char :=
  ((cs.dropWhile isWhitespace).reverse.dropWhile isWhitespace).reverse

def sliceSource (source : String) (span : Span) : String :=
  let start := span.start.byteOffset
  let stop := span.stop.byteOffset
  if start ≤ stop then
    match (dropBytes start source.toList).bind (takeBytes (stop - start)) with
    | some cs => String.ofList (trim cs)
    | none => ""
  else ""

/-- The record of an item that has a name of its own; a method shares its generic's. -/
def Item.doc (host : Host) (source : String) : Item → Option (String × WordDoc)
  | .definition d => some (d.name, ⟨"colon definition",
      (d.effect.map renderEffect).getD "", sliceSource source d.span, ""⟩)
  | .generic g => some (g.name, ⟨"generic", renderEffect g.effect, sliceSource source g.span, ""⟩)
  | .constant c =>
    let detail := match c.value with
      | .int v => "value: " ++ toString v
      | .float v => "value: " ++ host.floatText v
      | .computed _ => "value: (computed)"
    some (c.name, ⟨"constant", "", sliceSource source c.span, detail⟩)
  | .variable v => some (v.name, ⟨"variable", "", sliceSource source v.span, ""⟩)
  | .value v => some (v.name, ⟨"value", "", sliceSource source v.span, ""⟩)
  | .class_ c =>
    let slots := " ".intercalate (c.slots.map SlotDef.name)
    let detail := (if slots.isEmpty then "slots: (none)" else "slots: " ++ slots) ++
      match c.superclass with
      | some parent => "   extends: " ++ parent
      | none => ""
    some (c.name, ⟨"class", "", sliceSource source c.span, detail⟩)
  | .collection c => some (c.name, ⟨"collection", "", sliceSource source c.span, ""⟩)
  | .create c => some (c.name, ⟨"data buffer (CREATE)", "", sliceSource source c.span, ""⟩)
  | .template t =>
    some (t.name, ⟨"defining word (CREATE/DOES>)", "", sliceSource source t.span, ""⟩)
  | _ => none

def buildDocs (host : Host) (items : List Item) (source : String) : Dict String WordDoc :=
  (items.filterMap (Item.doc host source)).foldl
    (fun docs p => Dict.insert docs (lower p.1) p.2) []

/-! NEEDS. -/

/-- The files that no NEEDS has pulled in yet. -/
def FileSystem.unread (fs : FileSystem) (included : List String) : Nat :=
  (fs.files.filter fun p => !included.contains p.1).length

theorem FileSystem.unread_mono (fs : FileSystem) {inc inc' : List String} (h : inc ⊆ inc') :
    fs.unread inc' ≤ fs.unread inc := by
  refine List.Sublist.length_le (List.monotone_filter_right _ fun p hp => ?_)
  simp only [Bool.not_eq_true', List.contains_eq_mem, decide_eq_false_iff_not] at hp ⊢
  exact fun hm => hp (h hm)

theorem FileSystem.readToString_key {fs : FileSystem} {full contents : String}
    (h : fs.readToString full = .ok contents) : fs.files.lookup (fs.key full) = some contents := by
  simp only [FileSystem.readToString] at h
  split at h
  · next c hc =>
    obtain ⟨k, hk, hl⟩ := Option.bind_eq_some_iff.mp hc
    cases h
    rw [FileSystem.key, hk]
    exact hl
  · cases h

theorem FileSystem.unread_cons {fs : FileSystem} {full contents : String} {included : List String}
    (hr : fs.readToString full = .ok contents) (hk : included.contains (fs.key full) = false) :
    fs.unread (fs.key full :: included) < fs.unread included := by
  have hmem : (fs.key full, contents) ∈ fs.files :=
    Dict.mem_of_lookup (readToString_key hr)
  have hsub : (fs.files.filter fun p => !(fs.key full :: included).contains p.1) =
      (fs.files.filter fun p => !included.contains p.1).filter fun p => p.1 != fs.key full := by
    rw [List.filter_filter]
    refine List.filter_congr fun p _ => ?_
    rw [List.contains_cons, Bool.not_or, bne]
  rw [FileSystem.unread, FileSystem.unread, hsub, List.length_filter_lt_length_iff_exists]
  refine ⟨(fs.key full, contents), List.mem_filter.mpr ⟨hmem, ?_⟩, ?_⟩
  · simpa using hk
  · simp

/-- The outcome of an expansion from a set of included files, on which it may fail; the set only
grows. -/
structure Expansion (included : List String) where
  result : Except String (List Item × Dict String WordDoc)
  after : List String
  grows : included ⊆ after

def compileItems (host : Host) (contents : String) : Except String (List Item) :=
  match lex contents with
  | .error e => .error e.display
  | .ok toks =>
    match parse host.parseLet toks with
    | .error e => .error e.display
    | .ok prog => .ok prog.items

def mergeDocs (docs new : Dict String WordDoc) : Dict String WordDoc :=
  new.foldr (fun p docs => Dict.orInsert docs p.1 p.2) docs

section Needs
variable (host : Host) (fs : FileSystem)

def needsPath (base : Option String) (path : String) : String :=
  match base with
  | some dir => fs.join dir path
  | none => path

/-- The loop over the items of one file. `bound` is the set it started from, and `inner` expands a file
that has just been read, when fewer files are left unread. -/
def expandItems (bound : List String)
    (inner : Option String → List Item → (inc : List String) → fs.unread inc < fs.unread bound →
      Dict String WordDoc → Expansion inc)
    (base : Option String) (items : List Item) (included : List String) (hb : bound ⊆ included)
    (docs : Dict String WordDoc) : Expansion included :=
  match items with
  | [] => ⟨.ok ([], docs), included, List.Subset.refl _⟩
  | .needs path _ :: items =>
    let full := needsPath fs base path
    if hk : included.contains (fs.key full) then expandItems bound inner base items included hb docs
    else
      match hr : fs.readToString full with
      | .error e => ⟨.error e, fs.key full :: included, List.subset_cons_self _ _⟩
      | .ok contents =>
        match compileItems host contents with
        | .error e => ⟨.error e, fs.key full :: included, List.subset_cons_self _ _⟩
        | .ok sub =>
          let read := inner (fs.parent full) sub (fs.key full :: included)
            (Nat.lt_of_lt_of_le (FileSystem.unread_cons hr (by simpa using hk))
              (fs.unread_mono hb))
            (mergeDocs docs (buildDocs host sub contents))
          have hin : included ⊆ read.after :=
            List.Subset.trans (List.subset_cons_self _ _) read.grows
          match read.result with
          | .error e => ⟨.error e, read.after, hin⟩
          | .ok (subItems, docs) =>
            let rest := expandItems bound inner base items read.after (List.Subset.trans hb hin) docs
            ⟨rest.result.map fun r => (subItems ++ r.1, r.2), rest.after,
              List.Subset.trans hin rest.grows⟩
  | item :: items =>
    let rest := expandItems bound inner base items included hb docs
    ⟨rest.result.map fun r => (item :: r.1, r.2), rest.after, rest.grows⟩

def expandNeeds (base : Option String) (items : List Item) (included : List String)
    (docs : Dict String WordDoc) : Expansion included :=
  expandItems host fs included (fun base sub inc _h docs => expandNeeds base sub inc docs) base items
    included (List.Subset.refl _) docs
termination_by fs.unread included
decreasing_by exact _h

/-- The loop, with `expandNeeds` inside, is `expandNeeds` from wherever it stands. -/
theorem expandItems_eq (bound : List String) (base : Option String) (items : List Item)
    (included : List String) (hb : bound ⊆ included) (docs : Dict String WordDoc) :
    expandItems host fs bound (fun base sub inc _ docs => expandNeeds host fs base sub inc docs) base
      items included hb docs = expandNeeds host fs base items included docs := by
  induction items generalizing bound included docs with
  | nil => rw [expandNeeds, expandItems, expandItems]
  | cons item items ih =>
    conv_rhs => rw [expandNeeds]
    cases item with
    | needs path span =>
      simp only [expandItems]
      split
      · rw [ih, ih]
      · split
        · rfl
        · split
          · rfl
          · split
            · rfl
            · simp only [ih]
    | _ => simp only [expandItems, ih]

theorem expandNeeds_nil (base : Option String) (included : List String)
    (docs : Dict String WordDoc) :
    expandNeeds host fs base [] included docs =
      ⟨.ok ([], docs), included, List.Subset.refl _⟩ := by
  rw [expandNeeds, expandItems]

theorem expandNeeds_included {base : Option String} {path : String} {included : List String}
    (hk : fs.key (needsPath fs base path) ∈ included) (span : Span) (items : List Item)
    (docs : Dict String WordDoc) :
    expandNeeds host fs base (.needs path span :: items) included docs =
      expandNeeds host fs base items included docs := by
  have hc : included.contains (fs.key (needsPath fs base path)) = true := by
    simpa using hk
  rw [expandNeeds]
  simp only [expandItems, hc, dite_true]
  exact expandItems_eq host fs _ _ _ _ _ _

theorem expandNeeds_other {item : Item} (hi : ∀ path span, item ≠ .needs path span)
    (base : Option String) (items : List Item) (included : List String)
    (docs : Dict String WordDoc) :
    expandNeeds host fs base (item :: items) included docs =
      ⟨(expandNeeds host fs base items included docs).result.map fun r => (item :: r.1, r.2),
        (expandNeeds host fs base items included docs).after,
        (expandNeeds host fs base items included docs).grows⟩ := by
  rw [expandNeeds]
  cases item with
  | needs path span => exact absurd rfl (hi path span)
  | _ => simp only [expandItems, expandItems_eq]

theorem expandNeeds_unreadable {base : Option String} {path e : String} {included : List String}
    (hk : fs.key (needsPath fs base path) ∉ included)
    (hr : fs.readToString (needsPath fs base path) = .error e) (span : Span) (items : List Item)
    (docs : Dict String WordDoc) :
    (expandNeeds host fs base (.needs path span :: items) included docs).result = .error e := by
  have hc : included.contains (fs.key (needsPath fs base path)) = false := by
    simpa using hk
  rw [expandNeeds]
  simp only [expandItems, hc, Bool.false_eq_true, dite_false]
  split
  · rename_i e' hr'
    exact congrArg _ (Except.error.inj (hr'.symm.trans hr))
  · rename_i contents hr'
    exact absurd (hr'.symm.trans hr) (by simp)

theorem expandNeeds_malformed {base : Option String} {path e contents : String}
    {included : List String} (hk : fs.key (needsPath fs base path) ∉ included)
    (hr : fs.readToString (needsPath fs base path) = .ok contents)
    (hc : compileItems host contents = .error e) (span : Span) (items : List Item)
    (docs : Dict String WordDoc) :
    (expandNeeds host fs base (.needs path span :: items) included docs).result = .error e := by
  have hNew : included.contains (fs.key (needsPath fs base path)) = false := by
    simpa using hk
  rw [expandNeeds]
  simp only [expandItems, hNew, Bool.false_eq_true, dite_false]
  split
  · rename_i e' hr'
    exact absurd (hr'.symm.trans hr) (by simp)
  · rename_i contents' hr'
    obtain rfl := Except.ok.inj (hr'.symm.trans hr)
    simp only [hc]

/-- The file read in place of its first NEEDS, and then the items behind it. -/
theorem expandNeeds_read {base : Option String} {path contents : String} {sub : List Item}
    {included : List String} (hk : fs.key (needsPath fs base path) ∉ included)
    (hr : fs.readToString (needsPath fs base path) = .ok contents)
    (hc : compileItems host contents = .ok sub) (span : Span) (items : List Item)
    (docs : Dict String WordDoc) :
    let read := expandNeeds host fs (fs.parent (needsPath fs base path)) sub
      (fs.key (needsPath fs base path) :: included) (mergeDocs docs (buildDocs host sub contents))
    let whole := expandNeeds host fs base (.needs path span :: items) included docs
    (∀ e, read.result = .error e → whole.result = .error e ∧ whole.after = read.after) ∧
    ∀ subItems docs', read.result = .ok (subItems, docs') →
      whole.result = (expandNeeds host fs base items read.after docs').result.map
        (fun r => (subItems ++ r.1, r.2)) ∧
      whole.after = (expandNeeds host fs base items read.after docs').after := by
  have hNew : included.contains (fs.key (needsPath fs base path)) = false := by
    simpa using hk
  intro read whole
  have hWhole : whole = expandNeeds host fs base (.needs path span :: items) included docs := rfl
  rw [expandNeeds] at hWhole
  simp only [expandItems, hNew, Bool.false_eq_true, dite_false] at hWhole
  split at hWhole
  · rename_i e' hr'
    exact absurd (hr'.symm.trans hr) (by simp)
  · rename_i contents' hr'
    obtain rfl := Except.ok.inj (hr'.symm.trans hr)
    split at hWhole
    · rename_i e' hc'
      exact absurd (hc'.symm.trans hc) (by simp)
    · rename_i sub' hc'
      obtain rfl := Except.ok.inj (hc'.symm.trans hc)
      constructor
      · intro e he
        split at hWhole
        · rename_i e' he'
          rw [hWhole]
          exact ⟨he'.symm.trans he, rfl⟩
        · rename_i he'
          exact absurd (he'.symm.trans he) (by simp)
      · intro subItems docs' hok
        split at hWhole
        · rename_i he'
          exact absurd (he'.symm.trans hok) (by simp)
        · rename_i subItems' docs'' hok'
          obtain ⟨rfl, rfl⟩ := Prod.mk.inj (Except.ok.inj (hok'.symm.trans hok))
          rw [hWhole]
          simp only [expandItems_eq]
          exact ⟨rfl, rfl⟩

/-- Without NEEDS the items stay as they are. -/
theorem expandNeeds_self {items : List Item} (hi : ∀ path span, Item.needs path span ∉ items)
    (base : Option String) (included : List String) (docs : Dict String WordDoc) :
    expandNeeds host fs base items included docs =
      ⟨.ok (items, docs), included, List.Subset.refl _⟩ := by
  induction items with
  | nil => exact expandNeeds_nil host fs base included docs
  | cons item items ih =>
    rw [expandNeeds_other host fs fun path span h => hi path span (h ▸ List.mem_cons_self)]
    have hrest := ih fun path span h => hi path span (List.mem_cons_of_mem _ h)
    simp only [hrest, Except.map]

end Needs

/-! The compile. -/

/-- Counters of the process, which outlive every context: synthetic spans and method helpers. -/
structure Counters where
  synth : Nat
  helper : Nat

def Counters.start : Counters := ⟨synthCounterStart, 0⟩

structure Compiled where
  result : Except String (Ir × List EffectError)
  context : CompileContext
  counters : Counters

def interactiveWide : EscapeState := .wide .interactiveSession ⟨⟨0, 0, 0⟩, ⟨0, 0, 0⟩⟩

/-- Every variable is wide in a session, where later compiles may use its address. -/
def Sema.forSession (s : Sema) (docs : Dict String WordDoc) : Sema :=
  { s with escape := s.escape.map fun p => (p.1, interactiveWide), docs := docs }

/-- The definitions of a compile, merged into the context. -/
def CompileContext.update (ctx : CompileContext) (s : Sema) : CompileContext :=
  { ctx with
    userWords := Dict.merge ctx.userWords (s.userWords.map fun p => (p.1, p.2.defSpan))
    userEffects := Dict.merge ctx.userEffects s.userEffects
    templates := Dict.merge ctx.templates s.templates
    values := Dict.merge ctx.values (s.values.map fun p => (p.1, p.2.nameSpan))
    classes := Dict.merge ctx.classes s.classSlots
    docs := s.docs }

def CompileContext.prior (ctx : CompileContext) : PriorState :=
  ⟨ctx.userWords, ctx.userEffects, ctx.templates, ctx.values, ctx.classes⟩

/-- The semantic model of a compile, with the include set and the counter it leaves behind. -/
structure Analysed where
  result : Except String Sema
  included : List String
  synth : Nat

/-- Everything in front of emission. -/
def analyse (host : Host) (fs : FileSystem) (source : String) (ctx : CompileContext) (synth : Nat) :
    Analysed :=
  match compileItems host source with
  | .error e => ⟨.error e, ctx.included, synth⟩
  | .ok items =>
    let expansion := expandNeeds host fs none items ctx.included (buildDocs host items source)
    match expansion.result with
    | .error e => ⟨.error e, expansion.after, synth⟩
    | .ok (items, docs) =>
      match buildWithPriorState ⟨items⟩ ctx.prior synth with
      | (.error e, synth) => ⟨.error e.display, expansion.after, synth⟩
      | (.ok sema, synth) =>
        ⟨.ok (sema.forSession (Dict.merge ctx.docs docs)), expansion.after, synth⟩

def compileInContextWithDiagnostics (host : Host) (fs : FileSystem) (source : String)
    (ctx : CompileContext) (counters : Counters) : Compiled :=
  let a := analyse host fs source ctx counters.synth
  let ctx := { ctx with included := a.included }
  match a.result with
  | .error e => ⟨.error e, ctx, { counters with synth := a.synth }⟩
  | .ok sema =>
    let (ir, helper) := emit sema true counters.helper
    ⟨.ok (ir, sema.effectErrors), ctx.update sema, ⟨a.synth, helper⟩⟩

end FactorForth.Compiler
