import FactorForth.Correctness.ClassWords
import FactorForth.Library.Runs
import FactorForth.Semantics.Tuples

/-! The classes of a session, twice: the slots that the compiler flattens and keeps, and the classes that
Factor has after loading what the compiles emit. -/

namespace FactorForth.Correctness
open FactorForth.Library FactorForth.Compiler FactorForth.Semantics

def slotsDeclared (c : ClassDef) : List String := c.slots.map fun s => lower s.name

/-- The class as Factor is told of it. -/
def nodeOf (c : ClassDef) : Node String String := ⟨c.superclass.map mangled, slotsDeclared c⟩

/-- The classes that a session declares, in order. -/
def declarations (es : List Eval) : List ClassDef := es.flatMap fun e => classes e.items

/-- The flattened slots by name, and the classes by Factor name. -/
structure Tables where
  flat : Dict String (List String)
  nodes : Nodes String String

namespace Tables

def declare (t : Tables) (c : ClassDef) : Tables :=
  ⟨Nodes.flatten t.flat (lower c.name) (c.superclass.map lower) (slotsDeclared c),
    Dict.insert t.nodes (mangled c.name) (nodeOf c)⟩

/-- The parent of the class is declared and does not descend from it, a class that others extend keeps
its slots, and no other class has its Factor name. -/
def Follows (t : Tables) (c : ClassDef) : Prop :=
  Nodes.Follows factorUserName t.flat t.nodes (lower c.name) (c.superclass.map lower) (slotsDeclared c)

def FollowAll : Tables → List ClassDef → Prop
  | _, [] => True
  | t, c :: cs => t.Follows c ∧ FollowAll (t.declare c) cs

theorem followAll_append {t : Tables} {cs ds : List ClassDef} :
    FollowAll t (cs ++ ds) ↔ FollowAll t cs ∧ FollowAll (cs.foldl declare t) ds := by
  induction cs generalizing t with
  | nil => exact ⟨fun h => ⟨trivial, h⟩, fun h => h.2⟩
  | cons c cs ih =>
    rw [List.cons_append, FollowAll, FollowAll, ih, List.foldl_cons, and_assoc]

theorem nodeOf_parent (c : ClassDef) :
    nodeOf c = ⟨(c.superclass.map lower).map factorUserName, slotsDeclared c⟩ := by
  unfold nodeOf
  rw [Option.map_map]
  rfl

def Agree (t : Tables) : Prop := Nodes.Flat factorUserName t.flat t.nodes

theorem Agree.declare {t : Tables} (h : t.Agree) {c : ClassDef} (hFollows : t.Follows c) :
    (t.declare c).Agree := by
  have hNext := Nodes.Flat.declare h hFollows
  rw [← nodeOf_parent] at hNext
  exact hNext

theorem Agree.declareAll {t : Tables} (h : t.Agree) {cs : List ClassDef} (hFollow : FollowAll t cs) :
    (cs.foldl Tables.declare t).Agree := by
  induction cs generalizing t with
  | nil => exact h
  | cons c cs ih => exact ih (h.declare hFollow.1) hFollow.2

end Tables

/-- The tables after the compiles of a session. -/
def tables (es : List Eval) : Tables := (declarations es).foldl Tables.declare ⟨[], []⟩

/-! What the compiler keeps. -/

section Flattened

theorem flatten_lookup {F F' : Dict String (List String)} (h : ∀ k, F.lookup k = F'.lookup k)
    (k : String) (parent : Option String) (own : List String) (j : String) :
    (Nodes.flatten F k parent own).lookup j = (Nodes.flatten F' k parent own).lookup j := by
  have hInherited : (parent.elim [] fun p => (F.lookup p).getD []) =
      parent.elim [] fun p => (F'.lookup p).getD [] := by
    cases parent with
    | none => rfl
    | some p => exact congrArg (fun o => Option.getD o []) (h p)
  unfold Nodes.flatten
  rw [Dict.lookup_insert, Dict.lookup_insert, hInherited, h]

theorem declareAll_lookup {t t' : Tables} (h : ∀ k, t.flat.lookup k = t'.flat.lookup k)
    (cs : List ClassDef) (k : String) :
    (cs.foldl Tables.declare t).flat.lookup k = (cs.foldl Tables.declare t').flat.lookup k := by
  induction cs generalizing t t' with
  | nil => exact h k
  | cons c cs ih => exact ih (flatten_lookup h _ _ _)

theorem computeClassSlots_declare (items : List Item) (t : Tables) :
    computeClassSlots ⟨items⟩ t.flat = ((classes items).foldl Tables.declare t).flat := by
  induction items generalizing t with
  | nil => rfl
  | cons item items ih =>
    cases item with
    | class_ c =>
      have hStep : computeClassSlots ⟨.class_ c :: items⟩ t.flat =
          computeClassSlots ⟨items⟩ (t.declare c).flat := by
        unfold computeClassSlots
        rw [List.foldl_cons]
        congr 1
        obtain ⟨name, nameSpan, superclass, slots, span⟩ := c
        cases superclass <;> rfl
      rw [hStep, ih]
      rfl
    | _ => exact ih t

theorem compiled_classSlots {host : Host} {fs : FileSystem} {source : String} {ctx : CompileContext}
    {synth : Nat} {m : Sema} (h : (analyse host fs source ctx synth).result = .ok m) {t : Tables}
    (hPrior : ∀ k, ctx.classes.lookup k = t.flat.lookup k) (k : String) :
    m.classSlots.lookup k = ((classes m.program.items).foldl Tables.declare t).flat.lookup k := by
  obtain ⟨resolved, docs, rfl⟩ := analyse_built host fs h
  show (computeClassSlots resolved.program ctx.classes).lookup k =
    ((classes (resolved.program.items.map _)).foldl Tables.declare t).flat.lookup k
  rw [classes_lowerExit]
  have hSame := computeClassSlots_declare resolved.program.items ⟨ctx.classes, t.nodes⟩
  rw [show computeClassSlots resolved.program ctx.classes = _ from hSame]
  exact declareAll_lookup hPrior _ k

/-- In every compile of a session the flattened slots are those of all declarations up to there. -/
theorem evals_classSlots (host : Host) (fs : FileSystem) (sources : List String)
    {ctx : CompileContext} {counters : Counters} {t : Tables}
    (hPrior : ∀ k, ctx.classes.lookup k = t.flat.lookup k) {before after : List Eval} {e : Eval}
    (h : evals host fs sources ctx counters = before ++ e :: after) (k : String) :
    e.sema.classSlots.lookup k =
      ((declarations (before ++ [e])).foldl Tables.declare t).flat.lookup k := by
  induction sources generalizing ctx counters t before with
  | nil => simp [evals] at h
  | cons source sources ih =>
    rw [evals] at h
    let s : Session := ⟨ctx, counters, []⟩
    unfold compileEval at h
    cases hRun : (analyse host fs source ctx counters.synth).result with
    | error error =>
      obtain ⟨included, hCtx⟩ := @eval_error host fs s source error hRun
      rw [hRun] at h
      refine ih (fun k => ?_) h
      rw [show (compileInContextWithDiagnostics host fs source ctx counters).context = _ from hCtx]
      exact hPrior k
    | ok m =>
      obtain ⟨included, hCtx⟩ := @eval_ok host fs s source m hRun
      rw [hRun] at h
      have hSlots := compiled_classSlots hRun hPrior
      cases before with
      | nil =>
        obtain ⟨rfl, -⟩ := List.cons.inj h
        rw [hSlots]
        simp [declarations, Eval.items]
      | cons first before =>
        obtain ⟨rfl, hRest⟩ := List.cons.inj h
        have hNext : ∀ k, (compileInContextWithDiagnostics host fs source ctx counters).context.classes.lookup k =
            ((classes m.program.items).foldl Tables.declare t).flat.lookup k := by
          intro k
          rw [show (compileInContextWithDiagnostics host fs source ctx counters).context = _ from hCtx]
          show (Dict.merge ctx.classes m.classSlots).lookup k = _
          rw [Dict.lookup_merge, ← hSlots]
          cases hNew : m.classSlots.lookup k with
          | some slots => rfl
          | none =>
            obtain ⟨hIn, hOut⟩ := built_classSlots hRun k
            rw [Option.none_or, ← hNew]
            refine (hOut fun hName => ?_).symm
            have hSome := hIn hName
            rw [Dict.contains, hNew] at hSome
            cases hSome
        rw [ih hNext hRest]
        simp [declarations, Eval.items, List.foldl_append]

end Flattened

/-! What Factor loads. -/

/-- The class that a form declares. -/
def Line.node? : Line → Option (String × Node String String)
  | .tuple name parent slots => some (name, ⟨parent, slots⟩)
  | _ => none

/-- The words that a form defines beside the class it declares. -/
def Line.otherWords (rawWords : String → List String) : Line → List String
  | .tuple name _ _ => [name ++ "?"]
  | l => Line.words rawWords l

/-- A form is loaded: a class whose name it gives to another word is forgotten, and a class that it
declares needs a parent that does not come back to it. -/
def loadLine (rawWords : String → List String) (T : Nodes String String) (l : Line)
    (T' : Nodes String String) : Prop :=
  let kept := T.filter fun p => p.1 ∉ Line.otherWords rawWords l
  match Line.node? l with
  | some (name, node) => Nodes.Accepts kept name node ∧ T' = Dict.insert kept name node
  | none => T' = kept

/-- The classes that Factor has after loading the source. -/
def LoadsTo (rawWords : String → List String) (ir : Ir) (T : Nodes String String) : Prop :=
  Run (loadLine rawWords) [] ir T

def AcceptAll : Nodes String String → List (String × Node String String) → Prop
  | _, [] => True
  | T, p :: ps => Nodes.Accepts T p.1 p.2 ∧ AcceptAll (Dict.insert T p.1 p.2) ps

/-- Forms whose other words name no class add the classes that they declare. -/
theorem loads_forms {rawWords : String → List String} {T : Nodes String String} {ls : Ir}
    {names : List String}
    (hKeys : ∀ p ∈ T, p.1 ∈ names) (hNew : ∀ p ∈ ls.filterMap Line.node?, p.1 ∈ names)
    (hOther : ∀ w ∈ ls.flatMap (Line.otherWords rawWords), w ∉ names)
    (hAccept : AcceptAll T (ls.filterMap Line.node?)) :
    Run (loadLine rawWords) T ls
      ((ls.filterMap Line.node?).foldl (fun T p => Dict.insert T p.1 p.2) T) := by
  induction ls generalizing T with
  | nil => exact .start
  | cons l ls ih =>
    rw [List.flatMap_cons] at hOther
    have hKept : T.filter (fun p => p.1 ∉ Line.otherWords rawWords l) = T := by
      refine List.filter_eq_self.mpr fun p hp => decide_eq_true fun hWord => ?_
      exact hOther _ (List.mem_append_left _ hWord) (hKeys p hp)
    have hLater : ∀ w ∈ ls.flatMap (Line.otherWords rawWords), w ∉ names := fun w hw =>
      hOther w (List.mem_append_right _ hw)
    cases hNode : Line.node? l with
    | none =>
      rw [List.filterMap_cons_none hNode] at hNew hAccept ⊢
      refine Run.cons (t := T) ?_ (ih hKeys hNew hLater hAccept)
      unfold loadLine
      rw [hNode, hKept]
    | some p =>
      rw [List.filterMap_cons_some hNode] at hNew hAccept ⊢
      refine Run.cons (t := Dict.insert T p.1 p.2) ?_ (ih ?_ ?_ hLater hAccept.2)
      · unfold loadLine
        rw [hNode, hKept]
        exact ⟨hAccept.1, rfl⟩
      · intro q hq
        rcases Dict.mem_insert hq with rfl | hOld
        · exact hNew _ List.mem_cons_self
        · exact hKeys q hOld
      · exact fun q hq => hNew q (List.mem_cons_of_mem _ hq)

/-! The forms of a compile. -/

def namedNode (c : ClassDef) : String × Node String String := (mangled c.name, nodeOf c)

section Forms
variable (rawWords : String → List String)

/-- The words of an item beside the classes themselves. -/
def Item.otherOrigins (e : Eval) : Item → List Origin
  | .class_ c => (classOrigins (lower c.name) (slotsOf e.sema.classSlots c)).tail
  | item => Item.declaredOrigins rawWords e item

/-- The words of a compile beside its classes. -/
def otherOrigins (e : Eval) : List Origin :=
  e.items.flatMap (Item.otherOrigins rawWords e) ++ helperOrigins e.items e.helper ++
    e.items.flatMap Item.colonOrigins

variable {rawWords} {e : Eval}

theorem otherWords_eq_words {ls : Ir} (h : ls.filterMap Line.node? = []) :
    ls.flatMap (Line.otherWords rawWords) = ls.flatMap (Line.words rawWords) := by
  refine List.flatMap_congr fun l hl => ?_
  have hNone := List.filterMap_eq_nil_iff.mp h l hl
  cases l with
  | tuple name parent slots => cases hNone
  | _ => rfl

theorem declaration_nodes (item : Item) :
    (item.declaration e.sema e.aux).filterMap Line.node? =
      (classes [item]).map namedNode := by
  match item with
  | .variable v =>
    simp only [Item.declaration, emitVariable]
    split <;> rfl
  | .constant c =>
    simp only [Item.declaration, emitConstant]
    cases c.value <;> rfl
  | .class_ c =>
    have hSlots : ∀ slots : List String,
        (slots.flatMap (emitSlotWords (lower c.name))).filterMap Line.node? = [] := by
      intro slots
      rw [List.filterMap_eq_nil_iff]
      intro l hl
      obtain ⟨s, -, hl⟩ := List.mem_flatMap.mp hl
      simp only [emitSlotWords, List.mem_cons, List.not_mem_nil, or_false] at hl
      rcases hl with rfl | rfl | rfl <;> rfl
    exact congrArg (List.cons (namedNode c)) (hSlots _)
  | .generic g =>
    simp only [Item.declaration, emitGeneric]
    split
    · rw [List.filterMap_append, List.filterMap_append]
      split <;> rfl
    · rfl
  | .rawFactor _ | .definition _ | .topLevel _ _ | .create _ | .collection _ | .template _
  | .templateInstance _ | .value _ | .method _ | .needs _ _ => rfl

theorem declaration_otherWords (hw : Wide e.sema) (item : Item) :
    (item.declaration e.sema e.aux).flatMap (Line.otherWords rawWords) =
      (Item.otherOrigins rawWords e item).map Origin.word := by
  have hOther : classes [item] = [] → Item.otherOrigins rawWords e item = Item.declaredOrigins rawWords e item →
      (item.declaration e.sema e.aux).flatMap (Line.otherWords rawWords) =
        (Item.otherOrigins rawWords e item).map Origin.word := by
    intro hNone hOrigins
    have hNodes := @declaration_nodes e item
    rw [hNone] at hNodes
    rw [otherWords_eq_words hNodes, declaration_words hw, hOrigins]
  cases item with
  | class_ c =>
    have hWords := @declaration_words rawWords e hw (.class_ c)
    have hNone : ((emitClass c e.sema).tail).filterMap Line.node? = [] := by
      have hNodes := @declaration_nodes e (.class_ c)
      exact (List.cons.inj hNodes).2
    have hTail := @otherWords_eq_words rawWords _ hNone
    show (mangled c.name ++ "?") :: (emitClass c e.sema).tail.flatMap (Line.otherWords rawWords) = _
    rw [hTail]
    exact (List.cons.inj hWords).2
  | _ => exact hOther rfl rfl

theorem methods_nodes (items : List Item) (helper : Nat) :
    (emitMethods e.sema e.aux items helper).1.filterMap Line.node? = [] := by
  induction items generalizing helper with
  | nil => rfl
  | cons item items ih =>
    cases item with
    | method m =>
      rw [emitMethods_method, List.filterMap_append, ih]
      unfold emitMethod
      split <;> rfl
    | _ => exact ih helper

theorem colon_nodes (item : Item) : (item.colonWord e.sema).filterMap Line.node? = [] := by
  cases item with
  | definition d =>
    simp only [Item.colonWord, emitDefinition]
    split
    · rfl
    · split
      · split <;> rfl
      · rfl
  | _ => rfl

theorem execution_nodes (item : Item) : (item.execution e.sema).filterMap Line.node? = [] := by
  cases item <;> rfl

theorem ir_split : e.ir = [.using_ (vocabsNeeded e.sema), .inScratchpad] ++
    e.items.flatMap (Item.declaration e.sema e.aux) ++
    (emitMethods e.sema e.aux e.items e.helper).1 ++ e.items.flatMap (Item.colonWord e.sema) ++
    e.items.flatMap (Item.execution e.sema) ++ [.flush] := rfl

theorem flatMap_nodes {f : Item → Ir} (h : ∀ item, (f item).filterMap Line.node? = [])
    (items : List Item) : (items.flatMap f).filterMap Line.node? = [] := by
  rw [List.filterMap_flatMap]
  exact List.flatMap_eq_nil_iff.mpr fun item _ => h item

theorem ir_nodes : e.ir.filterMap Line.node? = (classes e.items).map namedNode := by
  have hDeclared : (e.items.flatMap (Item.declaration e.sema e.aux)).filterMap Line.node? =
      (classes e.items).map namedNode := by
    induction e.items with
    | nil => rfl
    | cons item items ih =>
      rw [List.flatMap_cons, List.filterMap_append, ih, declaration_nodes, ← List.map_append]
      congr 1
      exact (@List.filterMap_append _ _ [item] items _).symm
  have hFront : [Line.using_ (vocabsNeeded e.sema), .inScratchpad].filterMap Line.node? = [] := rfl
  have hFlush : [Line.flush].filterMap Line.node? = [] := rfl
  rw [ir_split]
  simp only [List.filterMap_append, hFront, hDeclared, methods_nodes, flatMap_nodes colon_nodes,
    flatMap_nodes execution_nodes, hFlush, List.append_nil, List.nil_append]

theorem ir_otherWords (hw : Wide e.sema) :
    e.ir.flatMap (Line.otherWords rawWords) = (otherOrigins rawWords e).map Origin.word := by
  have hDeclared : (e.items.flatMap (Item.declaration e.sema e.aux)).flatMap
      (Line.otherWords rawWords) =
        e.items.flatMap fun item => (Item.otherOrigins rawWords e item).map Origin.word := by
    rw [List.flatMap_assoc]
    simp only [declaration_otherWords hw]
  have hColon : (e.items.flatMap (Item.colonWord e.sema)).flatMap (Line.otherWords rawWords) =
      e.items.flatMap fun item => (Item.colonOrigins item).map Origin.word := by
    rw [otherWords_eq_words (flatMap_nodes colon_nodes e.items), List.flatMap_assoc]
    simp only [colon_words]
  have hExecution : (e.items.flatMap (Item.execution e.sema)).flatMap (Line.otherWords rawWords) = [] := by
    rw [otherWords_eq_words (flatMap_nodes execution_nodes e.items), List.flatMap_assoc]
    exact List.flatMap_eq_nil_iff.mpr fun item _ => execution_words item
  have hFront : [Line.using_ (vocabsNeeded e.sema), .inScratchpad].flatMap
      (Line.otherWords rawWords) = [] := rfl
  have hFlush : [Line.flush].flatMap (Line.otherWords rawWords) = [] := rfl
  rw [ir_split]
  simp only [List.flatMap_append, hFront, hDeclared, otherWords_eq_words (methods_nodes _ _),
    methods_words, hColon, hExecution, hFlush, otherOrigins, List.map_append, List.map_flatMap,
    List.append_nil, List.nil_append]

end Forms

/-! Sessions. -/

/-- No word of a compile but a class has the Factor name of a class that is declared by then. -/
def NamesKept (rawWords : String → List String) : List ClassDef → List Eval → Prop
  | _, [] => True
  | declared, e :: es =>
    (∀ o ∈ otherOrigins rawWords e, ∀ c ∈ declared ++ classes e.items, o.word ≠ mangled c.name) ∧
      NamesKept rawWords (declared ++ classes e.items) es

def decideNamesKept (rawWords : String → List String) (declared : List ClassDef) :
    (es : List Eval) → Decidable (NamesKept rawWords declared es)
  | [] => isTrue trivial
  | e :: es =>
    have := decideNamesKept rawWords (declared ++ classes e.items) es
    inferInstanceAs (Decidable (_ ∧ _))

instance (rawWords : String → List String) (declared : List ClassDef) (es : List Eval) :
    Decidable (NamesKept rawWords declared es) := decideNamesKept rawWords declared es

theorem foldl_nodes (t : Tables) (cs : List ClassDef) :
    (cs.map namedNode).foldl (fun T p => Dict.insert T p.1 p.2) t.nodes =
      (cs.foldl Tables.declare t).nodes := by
  induction cs generalizing t with
  | nil => rfl
  | cons c cs ih => exact ih (t.declare c)

theorem acceptAll_of_follow {t : Tables} {cs : List ClassDef} (h : t.FollowAll cs) :
    AcceptAll t.nodes (cs.map namedNode) := by
  induction cs generalizing t with
  | nil => trivial
  | cons c cs ih =>
    refine ⟨?_, ih h.2⟩
    have hAccepts := h.1.accepts
    rw [← Tables.nodeOf_parent] at hAccepts
    exact hAccepts

theorem acceptAll_append {T : Nodes String String} {ps qs : List (String × Node String String)} :
    AcceptAll T (ps ++ qs) ↔
      AcceptAll T ps ∧ AcceptAll (ps.foldl (fun T p => Dict.insert T p.1 p.2) T) qs := by
  induction ps generalizing T with
  | nil => exact ⟨fun h => ⟨trivial, h⟩, fun h => h.2⟩
  | cons p ps ih =>
    rw [List.cons_append, AcceptAll, AcceptAll, ih, List.foldl_cons, and_assoc]

theorem session_loads {rawWords : String → List String} {es : List Eval} (hWide : ∀ e ∈ es, Wide e.sema)
    {t : Tables} {declared : List ClassDef} (hKeys : ∀ p ∈ t.nodes, ∃ c ∈ declared, p.1 = mangled c.name)
    (hNames : NamesKept rawWords declared es)
    (hAccept : AcceptAll t.nodes ((declarations es).map namedNode)) :
    Run (loadLine rawWords) t.nodes (emitted es) ((declarations es).foldl Tables.declare t).nodes := by
  induction es generalizing t declared with
  | nil => exact .start
  | cons e es ih =>
    obtain ⟨hHere, hLater⟩ := hNames
    have hSplit : declarations (e :: es) = classes e.items ++ declarations es := List.flatMap_cons
    rw [hSplit] at hAccept ⊢
    rw [List.map_append] at hAccept
    obtain ⟨hAcceptHere, hAcceptLater⟩ := acceptAll_append.mp hAccept
    rw [foldl_nodes] at hAcceptLater
    have hEval : Run (loadLine rawWords) t.nodes e.ir
        ((classes e.items).foldl Tables.declare t).nodes := by
      rw [← foldl_nodes, ← ir_nodes]
      refine @loads_forms rawWords t.nodes e.ir ((declared ++ classes e.items).map fun c => mangled c.name)
        (fun p hp => ?_) (fun p hp => ?_) (fun w hw hClass => ?_) ?_
      · obtain ⟨c, hc, hName⟩ := hKeys p hp
        exact List.mem_map.mpr ⟨c, List.mem_append_left _ hc, hName.symm⟩
      · rw [ir_nodes] at hp
        obtain ⟨c, hc, rfl⟩ := List.mem_map.mp hp
        exact List.mem_map.mpr ⟨c, List.mem_append_right _ hc, rfl⟩
      · rw [ir_otherWords (hWide e List.mem_cons_self)] at hw
        obtain ⟨o, ho, rfl⟩ := List.mem_map.mp hw
        obtain ⟨c, hc, hName⟩ := List.mem_map.mp hClass
        exact hHere o ho c hc hName.symm
      · rw [ir_nodes]
        exact hAcceptHere
    rw [emitted_cons, List.foldl_append]
    refine hEval.append (ih (fun e' he' => hWide e' (List.mem_cons_of_mem _ he')) ?_ hLater hAcceptLater)
    intro p hp
    rw [← foldl_nodes] at hp
    rcases Dict.mem_foldl_insert hp with hOld | hNew
    · obtain ⟨c, hc, hName⟩ := hKeys p hOld
      exact ⟨c, List.mem_append_left _ hc, hName⟩
    · obtain ⟨c, hc, rfl⟩ := List.mem_map.mp hNew
      exact ⟨c, List.mem_append_right _ hc, rfl⟩

end FactorForth.Correctness
