import FactorForth.Correctness.OwnTargets

/-! The scope of a local. The resolver knows one set of locals for a whole body, so a declaration
reaches the places in front of it and those of other branches too. -/

namespace FactorForth.Correctness
open FactorForth.Library FactorForth.Compiler

deriving instance DecidableEq for Place

/-! The lexical scope of each place. -/

/-- The names an expression declares for the rest of its own sequence. -/
def exprDeclares : Expr → List String
  | .locals names _ => localNames names
  | _ => []

mutual
/-- The references and ticks of an expression, each with the locals declared in front of it in its own
sequence or in an enclosing one. -/
def exprPlaces (σ : List String) : Expr → List Place
  | .wordRef name span => [⟨σ, name, span⟩]
  | .tick name span => [⟨σ, name, span⟩]
  | .ifElse thenBody none _ => lexicalPlaces σ thenBody
  | .ifElse thenBody (some elseBody) _ => lexicalPlaces σ thenBody ++ lexicalPlaces σ elseBody
  | .beginUntil body _ => lexicalPlaces σ body
  | .beginAgain body _ => lexicalPlaces σ body
  | .doLoop _ body _ _ => lexicalPlaces σ body
  | .beginWhileRepeat pred body _ => lexicalPlaces σ pred ++ lexicalPlaces σ body
  | .caseOf arms none _ => armsPlaces σ arms
  | .caseOf arms (some default) _ => armsPlaces σ arms ++ lexicalPlaces σ default
  | _ => []

def armsPlaces (σ : List String) : List (CaseArm Expr) → List Place
  | [] => []
  | ⟨matchExpr, body, _⟩ :: arms =>
    lexicalPlaces σ matchExpr ++ lexicalPlaces σ body ++ armsPlaces σ arms

def lexicalPlaces (σ : List String) : List Expr → List Place
  | [] => []
  | e :: es => exprPlaces σ e ++ lexicalPlaces (σ ++ exprDeclares e) es
end

def Place.occurrence (p : Place) : String × Span := (p.name, p.span)

mutual
theorem exprPlaces_occurrences (σ : List String) : ∀ e : Expr,
    (exprPlaces σ e).map Place.occurrence = exprOccurrences e
  | .ifElse thenBody none _ => lexicalPlaces_occurrences σ thenBody
  | .ifElse thenBody (some elseBody) _ => by
    rw [exprPlaces, List.map_append, lexicalPlaces_occurrences, lexicalPlaces_occurrences,
      exprOccurrences]
  | .beginUntil body _ => lexicalPlaces_occurrences σ body
  | .beginAgain body _ => lexicalPlaces_occurrences σ body
  | .doLoop _ body _ _ => lexicalPlaces_occurrences σ body
  | .beginWhileRepeat pred body _ => by
    rw [exprPlaces, List.map_append, lexicalPlaces_occurrences, lexicalPlaces_occurrences,
      exprOccurrences]
  | .caseOf arms none _ => armsPlaces_occurrences σ arms
  | .caseOf arms (some default) _ => by
    rw [exprPlaces, List.map_append, armsPlaces_occurrences, lexicalPlaces_occurrences,
      exprOccurrences]
  | .wordRef _ _ | .tick _ _ | .lit _ | .toValue _ _ | .see _ _ | .letForm _ _ | .locals _ _ => rfl

theorem armsPlaces_occurrences (σ : List String) : ∀ arms : List (CaseArm Expr),
    (armsPlaces σ arms).map Place.occurrence = armsOccurrences arms
  | [] => rfl
  | ⟨matchExpr, body, _⟩ :: arms => by
    rw [armsPlaces, List.map_append, List.map_append, lexicalPlaces_occurrences,
      lexicalPlaces_occurrences, armsPlaces_occurrences, armsOccurrences]

theorem lexicalPlaces_occurrences (σ : List String) : ∀ es : List Expr,
    (lexicalPlaces σ es).map Place.occurrence = occurrences es
  | [] => rfl
  | e :: es => by
    rw [lexicalPlaces, List.map_append, exprPlaces_occurrences, lexicalPlaces_occurrences,
      occurrences]
end

theorem exprDeclares_subset (e : Expr) : exprDeclares e ⊆ exprLocals e := by
  intro n hn
  cases e with
  | locals names span => exact hn
  | _ => cases hn

mutual
/-- What is in scope at a place was in scope in front, or is declared somewhere in the expression. -/
theorem exprPlaces_declared (σ : List String) : ∀ e : Expr,
    ∀ p ∈ exprPlaces σ e, p.locals ⊆ σ ++ exprLocals e
  | .wordRef _ _, p, hp => by
    obtain rfl := List.mem_singleton.mp hp
    exact List.subset_append_left _ _
  | .tick _ _, p, hp => by
    obtain rfl := List.mem_singleton.mp hp
    exact List.subset_append_left _ _
  | .ifElse thenBody none _, p, hp => lexicalPlaces_declared σ thenBody p hp
  | .ifElse thenBody (some elseBody) _, p, hp => by
    rw [exprPlaces, List.mem_append] at hp
    rw [exprLocals]
    rcases hp with hp | hp
    · have hThen := lexicalPlaces_declared σ thenBody p hp
      grind
    · have hElse := lexicalPlaces_declared σ elseBody p hp
      grind
  | .beginUntil body _, p, hp => lexicalPlaces_declared σ body p hp
  | .beginAgain body _, p, hp => lexicalPlaces_declared σ body p hp
  | .doLoop _ body _ _, p, hp => lexicalPlaces_declared σ body p hp
  | .beginWhileRepeat pred body _, p, hp => by
    rw [exprPlaces, List.mem_append] at hp
    rw [exprLocals]
    rcases hp with hp | hp
    · have hPred := lexicalPlaces_declared σ pred p hp
      grind
    · have hBody := lexicalPlaces_declared σ body p hp
      grind
  | .caseOf arms none _, p, hp => armsPlaces_declared σ arms p hp
  | .caseOf arms (some default) _, p, hp => by
    rw [exprPlaces, List.mem_append] at hp
    rw [exprLocals]
    rcases hp with hp | hp
    · have hArms := armsPlaces_declared σ arms p hp
      grind
    · have hDefault := lexicalPlaces_declared σ default p hp
      grind
  | .lit _, p, hp | .toValue _ _, p, hp | .see _ _, p, hp | .letForm _ _, p, hp
  | .locals _ _, p, hp => by cases hp

theorem armsPlaces_declared (σ : List String) : ∀ arms : List (CaseArm Expr),
    ∀ p ∈ armsPlaces σ arms, p.locals ⊆ σ ++ armsLocals arms
  | [], p, hp => by cases hp
  | ⟨matchExpr, body, _⟩ :: arms, p, hp => by
    rw [armsPlaces, List.mem_append, List.mem_append] at hp
    rw [armsLocals]
    rcases hp with (hp | hp) | hp
    · have hMatch := lexicalPlaces_declared σ matchExpr p hp
      grind
    · have hBody := lexicalPlaces_declared σ body p hp
      grind
    · have hArms := armsPlaces_declared σ arms p hp
      grind

theorem lexicalPlaces_declared (σ : List String) : ∀ es : List Expr,
    ∀ p ∈ lexicalPlaces σ es, p.locals ⊆ σ ++ collectBodyLocals es
  | [], p, hp => by cases hp
  | e :: es, p, hp => by
    rw [lexicalPlaces, List.mem_append] at hp
    rw [collectBodyLocals]
    rcases hp with hp | hp
    · have hHead := exprPlaces_declared σ e p hp
      grind
    · have hTail := lexicalPlaces_declared (σ ++ exprDeclares e) es p hp
      have hDeclared := exprDeclares_subset e
      grind
end

/-! The bodies that may declare locals. -/

/-- The head locals and the body of a definition or method. -/
def Item.localBody : Item → Option (List LocalDecl × List Expr)
  | .definition d => some (d.locals, d.body)
  | .method m => some (m.locals, m.body)
  | _ => none

/-- Every name that the head or a block anywhere in the body declares. -/
def declaredNames (head : List LocalDecl) (body : List Expr) : List String :=
  localNames head ++ collectBodyLocals body

theorem localBody_resolved {item : Item} {head : List LocalDecl} {body : List Expr}
    (h : Item.localBody item = some (head, body)) :
    item.resolvedBodies = [(declaredNames head body, body)] := by
  cases item with
  | definition d =>
    obtain ⟨rfl, rfl⟩ := Prod.mk.inj (Option.some.inj h)
    rfl
  | method m =>
    obtain ⟨rfl, rfl⟩ := Prod.mk.inj (Option.some.inj h)
    rfl
  | _ => cases h

/-- An occurrence with its lexical scope, and the names declared anywhere in its definition. -/
structure ScopedPlace where
  lexical : Place
  declared : List String
deriving DecidableEq

/-- The place as the resolver sees it. -/
def ScopedPlace.resolved (s : ScopedPlace) : Place := ⟨s.declared, s.lexical.name, s.lexical.span⟩

/-- The occurrences of an item that is a definition or a method. -/
def Item.scopedPlaces (item : Item) : List ScopedPlace :=
  match Item.localBody item with
  | some (head, body) =>
    (lexicalPlaces (localNames head) body).map fun p => ⟨p, declaredNames head body⟩
  | none => []

def scopedPlaces (prog : Program) : List ScopedPlace := prog.items.flatMap Item.scopedPlaces

theorem mem_scopedPlaces {prog : Program} {s : ScopedPlace} (h : s ∈ scopedPlaces prog) :
    ∃ item ∈ prog.items, ∃ head body, Item.localBody item = some (head, body) ∧
      s.lexical ∈ lexicalPlaces (localNames head) body ∧ s.declared = declaredNames head body := by
  obtain ⟨item, hItem, h⟩ := List.mem_flatMap.mp h
  unfold Item.scopedPlaces at h
  split at h
  · rename_i head body hBody
    obtain ⟨p, hp, rfl⟩ := List.mem_map.mp h
    exact ⟨item, hItem, head, body, hBody, hp, rfl⟩
  · cases h

theorem scopedPlaces_walked {prog : Program} {s : ScopedPlace} (h : s ∈ scopedPlaces prog) :
    s.resolved ∈ walkedPlaces prog := by
  obtain ⟨item, hItem, head, body, hBody, hp, hDeclared⟩ := mem_scopedPlaces h
  have hOcc : s.lexical.occurrence ∈ occurrences body := by
    rw [← lexicalPlaces_occurrences (localNames head) body]
    exact List.mem_map_of_mem hp
  apply List.mem_flatMap.mpr
  refine ⟨(declaredNames head body, body), ?_, List.mem_map.mpr ⟨s.lexical.occurrence, hOcc, ?_⟩⟩
  · apply List.mem_flatMap.mpr
    exact ⟨item, hItem, by simp [localBody_resolved hBody]⟩
  · rw [← hDeclared]
    rfl

/-- What is in scope lexically is declared somewhere in the definition. -/
theorem lexical_declared {prog : Program} {s : ScopedPlace} (h : s ∈ scopedPlaces prog) :
    s.lexical.locals ⊆ s.declared := by
  obtain ⟨item, hItem, head, body, hBody, hp, hDeclared⟩ := mem_scopedPlaces h
  rw [hDeclared]
  exact lexicalPlaces_declared (localNames head) body s.lexical hp

/-! What a name denotes where some locals are in scope. -/

def isLocalTarget : Target → Bool
  | .local_ _ => true
  | _ => false

theorem builtin_not_local {name : String} {t : Target} (h : builtinTable.lookup name = some t) :
    isLocalTarget t = false := by
  have hAll : builtinTable.all (fun p => !isLocalTarget p.2) = true := by decide +kernel
  have hEntry := List.all_eq_true.mp hAll _ (Dict.mem_of_lookup h)
  simpa using hEntry

/-- A name denotes the local when one of that name is in scope, else the user word, else the builtin. -/
structure Denotes (words : Dict String Span) (scope : List String) (name : String) (t : Target) :
    Prop where
  local_ : isLocalTarget t = true ↔ lower name ∈ scope
  spelt : lower name ∈ scope → t = .local_ (lower name)
  user : lower name ∉ scope → Dict.contains words (lower name) = true →
    t = .userDefined (factorUserName (lower name))
  builtin : lower name ∉ scope → Dict.contains words (lower name) = false →
    builtinTable.lookup (lower name) = some t

theorem denotes_target (sc : Scope) (name : String) (t : Target) :
    sc.target name = some t ↔ Denotes sc.userWords sc.locals name t := by
  rw [Scope.target]
  by_cases hLocal : lower name ∈ sc.locals
  · rw [if_pos (by simpa using hLocal)]
    constructor
    · intro h
      obtain rfl := Option.some.inj h
      exact ⟨by simp [isLocalTarget, hLocal], fun _ => rfl, fun hNot => absurd hLocal hNot,
        fun hNot => absurd hLocal hNot⟩
    · intro h
      rw [h.spelt hLocal]
  · rw [if_neg (by simpa using hLocal)]
    cases hUser : Dict.contains sc.userWords (lower name) with
    | true =>
      rw [if_pos rfl]
      constructor
      · intro h
        obtain rfl := Option.some.inj h
        exact ⟨by simp [isLocalTarget, hLocal], fun hIn => absurd hIn hLocal, fun _ _ => rfl,
          fun _ hNot => by rw [hUser] at hNot; cases hNot⟩
      · intro h
        rw [h.user hLocal hUser]
    | false =>
      rw [if_neg Bool.false_ne_true]
      constructor
      · intro h
        refine ⟨by simp [builtin_not_local h, hLocal], fun hIn => absurd hIn hLocal, ?_, fun _ _ => h⟩
        intro _ hIn
        rw [hUser] at hIn
        cases hIn
      · intro h
        exact h.builtin hLocal hUser

/-- Two scopes, one inside the other, give a name the same target exactly when the larger one adds no
local of that name. -/
theorem denotes_agree {words : Dict String Span} {scope wide : List String} (hSub : scope ⊆ wide)
    {name : String} {t : Target} (h : Denotes words wide name t) :
    Denotes words scope name t ↔ (lower name ∈ wide → lower name ∈ scope) := by
  constructor
  · intro hScope hIn
    exact hScope.local_.mp (h.local_.mpr hIn)
  · intro hIff
    have hSame : lower name ∈ scope ↔ lower name ∈ wide := ⟨fun hIn => hSub hIn, hIff⟩
    refine ⟨h.local_.trans hSame.symm, fun hIn => h.spelt (hSame.mp hIn), ?_, ?_⟩
    · intro hOut
      exact h.user fun hIn => hOut (hSame.mpr hIn)
    · intro hOut
      exact h.builtin fun hIn => hOut (hSame.mpr hIn)

/-! The compile. -/

section
variable (host : Host) (fs : FileSystem) (source : String) (ctx : CompileContext) (synth : Nat)

/-- In an accepted compile, an occurrence at a span of its own denotes a local exactly when its head or
any block of its body declares one of that name, and otherwise the user word or builtin. That is its
lexical scope exactly when a name declared in the body is declared in front of the occurrence. -/
theorem compile_scoped {sema : Sema} (h : (analyse host fs source ctx synth).result = .ok sema) :
    let prog := preparedProgram host fs source ctx synth
    let words := knownWords ctx.prior prog
    ∀ s ∈ scopedPlaces prog,
      (∀ q ∈ walkedPlaces prog, q.span = s.lexical.span → q = s.resolved) →
      ∃ t, sema.wordTargets.lookup s.lexical.span = some t ∧
        Denotes words s.declared s.lexical.name t ∧
        (Denotes words s.lexical.locals s.lexical.name t ↔
          (lower s.lexical.name ∈ s.declared → lower s.lexical.name ∈ s.lexical.locals)) := by
  intro prog words s hs hAlone
  obtain ⟨hSome, hLookup⟩ := analyse_records host fs source ctx synth h
  have hWalked : s.resolved ∈ walkedPlaces prog := scopedPlaces_walked hs
  obtain ⟨t, ht⟩ := Option.isSome_iff_exists.mp (hSome _ hWalked)
  -- every place recorded at the span is this one, so the last one is
  have hLast : lastAt words (knownValues ctx.prior prog) (walkedPlaces prog) s.lexical.span =
      some t := by
    have hIn : s.resolved ∈ (walkedPlaces prog).filter fun q => q.span = s.lexical.span :=
      List.mem_filter.mpr ⟨hWalked, by simp [ScopedPlace.resolved]⟩
    obtain ⟨q, hq⟩ := Option.isSome_iff_exists.mp
      (List.getLast?_isSome.mpr (List.ne_nil_of_mem hIn))
    obtain ⟨hqWalked, hqSpan⟩ := List.mem_filter.mp (List.mem_of_getLast? hq)
    obtain rfl := hAlone q hqWalked (by simpa using hqSpan)
    rw [lastAt, hq]
    exact ht
  have hDenotes : Denotes words s.declared s.lexical.name t :=
    (denotes_target ⟨words, knownValues ctx.prior prog, s.declared⟩ s.lexical.name t).mp ht
  refine ⟨t, ?_, hDenotes, denotes_agree (lexical_declared hs) hDenotes⟩
  rw [hLookup]
  exact hLast

end

/-- The `x` behind its own head declaration is that local. -/
theorem compile_scoped_oneLocal :
    ∃ sema t, (analyse noLet noFiles ": f {: x :} x ;" .new 0).result = .ok sema ∧
      sema.wordTargets.lookup ⟨⟨1, 13, 12⟩, ⟨1, 14, 13⟩⟩ = some t ∧
      Denotes (knownWords CompileContext.new.prior
        (preparedProgram noLet noFiles ": f {: x :} x ;" .new 0)) ["x"] "x" t := by
  let prog := preparedProgram noLet noFiles ": f {: x :} x ;" .new 0
  let s : ScopedPlace := ⟨⟨["x"], "x", ⟨⟨1, 13, 12⟩, ⟨1, 14, 13⟩⟩⟩, ["x"]⟩
  have hOk : (analyse noLet noFiles ": f {: x :} x ;" .new 0).result.isOk = true := by decide +kernel
  have hPlace : s ∈ scopedPlaces prog := by decide +kernel
  have hAlone : ∀ q ∈ walkedPlaces prog, q.span = s.lexical.span → q = s.resolved := by
    decide +kernel
  cases h : (analyse noLet noFiles ": f {: x :} x ;" .new 0).result with
  | error e =>
    rw [h] at hOk
    cases hOk
  | ok sema =>
    obtain ⟨t, ht, hDenotes, hLexical⟩ :=
      compile_scoped noLet noFiles ": f {: x :} x ;" .new 0 h s hPlace hAlone
    exact ⟨sema, t, rfl, ht, hLexical.mpr fun _ => by decide⟩

/-- Every occurrence denotes what its lexical scope says. -/
def LexicallyScoped (prior : PriorState) (prog : Program) (sema : Sema) : Prop :=
  ∀ s ∈ scopedPlaces prog, ∃ t, sema.wordTargets.lookup s.lexical.span = some t ∧
    Denotes (knownWords prior prog) s.lexical.locals s.lexical.name t

/-- A `dup` in front of the block that declares a local of that name is that local. -/
theorem compile_not_lexicallyScoped :
    ¬ ∀ (source : String) (sema : Sema), (analyse noLet noFiles source .new 0).result = .ok sema →
      LexicallyScoped CompileContext.new.prior (preparedProgram noLet noFiles source .new 0) sema := by
  intro hAll
  let source := ": f dup {: dup :} ;"
  let s : ScopedPlace := ⟨⟨[], "dup", ⟨⟨1, 5, 4⟩, ⟨1, 8, 7⟩⟩⟩, ["dup"]⟩
  have hTarget : (analyse noLet noFiles source .new 0).result.toOption.map
      (fun sema => sema.wordTargets.lookup s.lexical.span) = some (some (.local_ "dup")) := by
    decide +kernel
  have hPlace : s ∈ scopedPlaces (preparedProgram noLet noFiles source .new 0) := by decide +kernel
  cases h : (analyse noLet noFiles source .new 0).result with
  | error e =>
    rw [h] at hTarget
    cases hTarget
  | ok sema =>
    obtain ⟨t, ht, hDenotes⟩ := hAll source sema h s hPlace
    rw [h] at hTarget
    have hLocal : sema.wordTargets.lookup s.lexical.span = some (.local_ "dup") :=
      Option.some.inj hTarget
    rw [hLocal] at ht
    obtain rfl := Option.some.inj ht
    -- nothing is in scope in front of the block
    cases hDenotes.local_.mp rfl

end FactorForth.Correctness
