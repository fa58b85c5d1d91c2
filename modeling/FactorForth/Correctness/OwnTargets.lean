import FactorForth.Compiler.Occurrences
import FactorForth.Correctness.ExitLowering
import FactorForth.Correctness.Session
import Mathlib.Data.List.Induction

/-! Which target an occurrence is emitted with. Targets are recorded by span, so an occurrence gets the
one that the resolver recorded last at its span. -/

namespace FactorForth.Correctness
open FactorForth.Library FactorForth.Compiler

/-! The resolver as a sequence of insertions. -/

section
variable (sc : Scope)

def record (out : Dict Span Target) (o : String × Span) : Dict Span Target :=
  match sc.target o.1 with
  | some t => Dict.insert out o.2 t
  | none => out

/-- The resolver succeeds on known names only, and records each of them in source order. -/
def Records (os : List (String × Span)) (out out' : Dict Span Target) : Prop :=
  out' = os.foldl (record sc) out ∧ ∀ o ∈ os, (sc.target o.1).isSome

variable {sc}

theorem Records.nil (out : Dict Span Target) : Records sc [] out out := ⟨rfl, by simp⟩

theorem Records.append {os os' : List (String × Span)} {out mid out' : Dict Span Target}
    (h : Records sc os out mid) (h' : Records sc os' mid out') : Records sc (os ++ os') out out' := by
  obtain ⟨rfl, hKnown⟩ := h
  obtain ⟨rfl, hKnown'⟩ := h'
  refine ⟨by rw [List.foldl_append], fun o ho => ?_⟩
  exact (List.mem_append.mp ho).elim (hKnown o) (hKnown' o)

theorem resolveName_records {name : String} {span : Span} {out out' : Dict Span Target}
    (h : resolveName sc name span out = .ok out') : Records sc [(name, span)] out out' := by
  unfold resolveName at h
  cases ht : sc.target name with
  | none =>
    rw [ht] at h
    cases h
  | some t =>
    rw [ht] at h
    obtain rfl := Except.ok.inj h
    constructor
    · simp [record, ht]
    · intro o ho
      rw [List.mem_singleton.mp ho]
      simp [ht]

mutual
theorem resolveExpr_records : ∀ (e : Expr) {out out' : Dict Span Target},
    resolveExpr sc e out = .ok out' → Records sc (exprOccurrences e) out out'
  | .lit _, _, _, h => Except.ok.inj h ▸ Records.nil _
  | .wordRef _ _, _, _, h => resolveName_records h
  | .tick _ _, _, _, h => resolveName_records h
  | .toValue name span, out, _, h => by
    rw [resolveExpr] at h
    split at h
    · exact Except.ok.inj h ▸ Records.nil _
    · cases h
  | .see _ _, _, _, h => Except.ok.inj h ▸ Records.nil _
  | .letForm _ _, _, _, h => Except.ok.inj h ▸ Records.nil _
  | .locals _ _, _, _, h => Except.ok.inj h ▸ Records.nil _
  | .ifElse thenBody none _, _, _, h => by
    rw [resolveExpr] at h
    exact resolveExprs_records thenBody h
  | .ifElse thenBody (some elseBody) _, _, _, h => by
    rw [resolveExpr] at h
    obtain ⟨mid, hThen, hElse⟩ := ok_of_bind h
    exact (resolveExprs_records thenBody hThen).append (resolveExprs_records elseBody hElse)
  | .beginUntil body _, _, _, h => by
    rw [resolveExpr] at h
    exact resolveExprs_records body h
  | .beginAgain body _, _, _, h => by
    rw [resolveExpr] at h
    exact resolveExprs_records body h
  | .beginWhileRepeat pred body _, _, _, h => by
    rw [resolveExpr] at h
    obtain ⟨mid, hPred, hBody⟩ := ok_of_bind h
    exact (resolveExprs_records pred hPred).append (resolveExprs_records body hBody)
  | .doLoop _ body _ _, _, _, h => by
    rw [resolveExpr] at h
    exact resolveExprs_records body h
  | .caseOf arms none _, _, _, h => by
    rw [resolveExpr] at h
    exact resolveArms_records arms h
  | .caseOf arms (some default) _, _, _, h => by
    rw [resolveExpr] at h
    obtain ⟨mid, hArms, hDefault⟩ := ok_of_bind h
    exact (resolveArms_records arms hArms).append (resolveExprs_records default hDefault)

theorem resolveArms_records : ∀ (arms : List (CaseArm Expr)) {out out' : Dict Span Target},
    resolveArms sc arms out = .ok out' → Records sc (armsOccurrences arms) out out'
  | [], _, _, h => Except.ok.inj h ▸ Records.nil _
  | ⟨matchExpr, body, _⟩ :: arms, _, _, h => by
    rw [resolveArms] at h
    obtain ⟨mid, hMatch, h⟩ := ok_of_bind h
    obtain ⟨mid', hBody, hArms⟩ := ok_of_bind h
    exact ((resolveExprs_records matchExpr hMatch).append (resolveExprs_records body hBody)).append
      (resolveArms_records arms hArms)

theorem resolveExprs_records : ∀ (es : List Expr) {out out' : Dict Span Target},
    resolveExprs sc es out = .ok out' → Records sc (occurrences es) out out'
  | [], _, _, h => Except.ok.inj h ▸ Records.nil _
  | e :: es, _, _, h => by
    rw [resolveExprs] at h
    obtain ⟨mid, hHead, hTail⟩ := ok_of_bind h
    exact (resolveExpr_records e hHead).append (resolveExprs_records es hTail)
end

end

/-- An occurrence in a body with these locals. -/
structure Place where
  locals : List String
  name : String
  span : Span

def bodyPlaces (b : List String × List Expr) : List Place :=
  (occurrences b.2).map fun o => ⟨b.1, o.1, o.2⟩

/-- What the resolver's rules give for the place's own name in its own definition. -/
def Place.own (userWords valueNames : Dict String Span) (p : Place) : Option Target :=
  Scope.target ⟨userWords, valueNames, p.locals⟩ p.name

def recordPlace (userWords valueNames : Dict String Span) (out : Dict Span Target) (p : Place) :
    Dict Span Target :=
  record ⟨userWords, valueNames, p.locals⟩ out (p.name, p.span)

section
variable {userWords valueNames : Dict String Span}

theorem resolveBodies_records (bodies : List (List String × List Expr))
    {out out' : Dict Span Target}
    (h : resolveBodies userWords valueNames bodies out = .ok out') :
    out' = (bodies.flatMap bodyPlaces).foldl (recordPlace userWords valueNames) out ∧
      ∀ p ∈ bodies.flatMap bodyPlaces, (p.own userWords valueNames).isSome := by
  induction bodies generalizing out with
  | nil => exact ⟨(Except.ok.inj h).symm, by simp⟩
  | cons b bodies ih =>
    obtain ⟨locals, body⟩ := b
    rw [resolveBodies] at h
    obtain ⟨mid, hBody, hRest⟩ := ok_of_bind h
    obtain ⟨hMid, hKnown⟩ := resolveExprs_records body hBody
    obtain ⟨hOut, hKnownRest⟩ := ih hRest
    constructor
    · rw [hOut, hMid, List.flatMap_cons, List.foldl_append, bodyPlaces, List.foldl_map]
      rfl
    · intro p hp
      rw [List.flatMap_cons, List.mem_append] at hp
      rcases hp with hp | hp
      · obtain ⟨o, ho, rfl⟩ := List.mem_map.mp hp
        exact hKnown o ho
      · exact hKnownRest p hp

/-- The target recorded last at a span. -/
def lastAt (userWords valueNames : Dict String Span) (places : List Place) (span : Span) :
    Option Target :=
  (places.filter fun p => p.span = span).getLast?.bind fun p => p.own userWords valueNames

theorem lookup_recorded (places : List Place) (span : Span)
    (h : ∀ p ∈ places, (p.own userWords valueNames).isSome) :
    (places.foldl (recordPlace userWords valueNames) []).lookup span =
      lastAt userWords valueNames places span := by
  induction places using List.reverseRecOn with
  | nil => rfl
  | append_singleton places p ih =>
    have hInit := ih fun q hq => h q (List.mem_append_left _ hq)
    have hLast := h p (by simp)
    obtain ⟨t, ht⟩ := Option.isSome_iff_exists.mp hLast
    have hRecord : ∀ out, recordPlace userWords valueNames out p = Dict.insert out p.span t := by
      intro out
      have hTarget : Scope.target ⟨userWords, valueNames, p.locals⟩ p.name = some t := ht
      simp [recordPlace, record, hTarget]
    rw [List.foldl_append, List.foldl_cons, List.foldl_nil, hRecord, Dict.lookup_insert, lastAt,
      List.filter_append]
    split
    · rename_i hSpan
      simp [hSpan, ht]
    · rename_i hSpan
      rw [hInit]
      simp [hSpan, lastAt]

end

/-! The EXIT pass keeps every occurrence it keeps where it was. -/

section
variable {t : Dict Span Target}

theorem mem_ifElse_leaves {thenBody : List Expr} {elseBody : Option (List Expr)} {span : Span}
    {a : Expr} : a ∈ exprLeaves (.ifElse thenBody elseBody span) ↔
      a ∈ leaves thenBody ∨ a ∈ leaves (elseBody.getD []) := by
  cases elseBody <;> simp [exprLeaves, leaves]

theorem mem_caseOf_leaves {arms : List (CaseArm Expr)} {default : Option (List Expr)}
    {span : Span} {a : Expr} : a ∈ exprLeaves (.caseOf arms default span) ↔
      a ∈ armsLeaves arms ∨ a ∈ leaves (default.getD []) := by
  cases default <;> simp [exprLeaves, leaves]

/-- Arms that run into the same code keep what they hold, apart from that of the code. -/
theorem leaves_lowerArms {tail : List Expr} {n : Nat}
    (ih : ∀ seq, seqSize seq ≤ n → ∀ a ∈ leaves (lowerSeq t seq).1, a ∈ leaves seq)
    (arms : List (CaseArm Expr)) (hn : armsSize arms + seqSize tail ≤ n) :
    ∀ a ∈ armsLeaves (lowerArms t arms tail).1,
      a ∈ armsLeaves arms ∨ a ∈ leaves tail := by
  induction arms with
  | nil =>
    intro a ha
    rw [lowerArms] at ha
    cases ha
  | cons arm arms ihArms =>
    obtain ⟨matchExpr, body, span⟩ := arm
    intro a ha
    rw [armsSize] at hn
    rw [lowerArms] at ha
    simp only [armsLeaves, List.mem_append] at ha ⊢
    rcases ha with (ha | ha) | ha
    · exact .inl (.inl (.inl ha))
    · have hBody := ih (body ++ tail) (by rw [seqSize_append]; omega) a ha
      rw [leaves_append, List.mem_append] at hBody
      exact hBody.imp (fun h => .inl (.inr h)) id
    · exact (ihArms (by omega) a ha).imp .inr id

theorem leaves_lowerSeq (n : Nat) : ∀ seq, seqSize seq ≤ n →
    ∀ a ∈ leaves (lowerSeq t seq).1, a ∈ leaves seq := by
  -- the tail moves into the arms: the induction is on the size
  induction n with
  | zero =>
    intro seq hn a ha
    cases seq with
    | nil => simpa [lowerSeq] using ha
    | cons e tail =>
      have hPos := Expr.size_pos e
      rw [seqSize] at hn
      omega
  | succ n ih =>
    intro seq hn a ha
    cases seq with
    | nil => simpa [lowerSeq] using ha
    | cons e tail =>
      have hPos := Expr.size_pos e
      rw [seqSize] at hn
      rw [leaves, List.mem_append]
      have hKeep : (lowerSeq t (e :: tail)).1 = e :: (lowerSeq t tail).1 →
          a ∈ exprLeaves e ∨ a ∈ leaves tail := by
        intro hEq
        rw [hEq, leaves, List.mem_append] at ha
        exact ha.imp id (ih tail (by omega) a)
      -- only IF and CASE take the tail in; a loop with an exit inside stays as it is
      by_cases hExit : exprUsesExit t e = true
      · cases e with
        | wordRef name span =>
          have hWord : isExitWord t (.wordRef name span) = true := by simpa [exprUsesExit] using hExit
          rw [lowerSeq_exit hWord] at ha
          cases ha
        | ifElse thenBody elseBody span =>
          rw [Expr.size_ifElse] at hn
          rw [lowerSeq_ifElse_exit hExit, leaves, List.mem_append, mem_ifElse_leaves] at ha
          rw [mem_ifElse_leaves]
          rcases ha with (ha | ha) | ha
          · have hThen := ih (thenBody ++ tail) (by rw [seqSize_append]; omega) a ha
            rw [leaves_append, List.mem_append] at hThen
            exact hThen.imp .inl id
          · have hElse := ih (elseBody.getD [] ++ tail) (by rw [seqSize_append]; omega) a ha
            rw [leaves_append, List.mem_append] at hElse
            exact hElse.imp .inr id
          · cases ha
        | caseOf arms default span =>
          rw [Expr.size_caseOf] at hn
          obtain ⟨default', hDefault, hEq⟩ := lowerSeq_caseOf_exit hExit tail
          rw [hEq, leaves, List.mem_append, mem_caseOf_leaves, hDefault] at ha
          rw [mem_caseOf_leaves]
          rcases ha with (ha | ha) | ha
          · exact (leaves_lowerArms ih arms (by omega) a ha).imp .inl id
          · have hRest := ih (default.getD [] ++ tail) (by rw [seqSize_append]; omega) a ha
            rw [leaves_append, List.mem_append] at hRest
            exact hRest.imp .inr id
          · cases ha
        | _ => exact hKeep (lowerSeq_other rfl (fun _ _ _ => by simp) (fun _ _ _ => by simp) tail)
      · exact hKeep (lowerSeq_cons_free (by simpa using hExit) tail)

theorem leaves_lowerBody (body : List Expr) :
    ∀ a ∈ leaves (lowerBody body t), a ∈ leaves body :=
  leaves_lowerSeq _ body (Nat.le_refl _)

theorem occurrences_lowerBody (body : List Expr) :
    ∀ o ∈ occurrences (lowerBody body t), o ∈ occurrences body := by
  rw [occurrences_leaves, occurrences_leaves]
  intro o ho
  obtain ⟨e, he, ho⟩ := List.mem_flatMap.mp ho
  exact List.mem_flatMap.mpr ⟨e, leaves_lowerBody body e he, ho⟩

end

/-! The places of a program that are emitted. -/

/-- The bodies that are written out, each with the locals of its own definition. -/
def Item.emittedBodies (t : Dict Span Target) : Item → List (List String × List Expr)
  | .definition d => [(localNames d.locals ++ collectBodyLocals d.body, lowerBody d.body t)]
  | .template _ => []
  | item => item.resolvedBodies

theorem emittedBodies_places {t : Dict Span Target} {item : Item} :
    ∀ p ∈ (Item.emittedBodies t item).flatMap bodyPlaces,
      p ∈ item.resolvedBodies.flatMap bodyPlaces := by
  cases item with
  | definition d =>
    intro p hp
    simp only [Item.emittedBodies, Item.resolvedBodies, List.flatMap_cons, List.flatMap_nil,
      List.append_nil] at hp ⊢
    obtain ⟨o, ho, rfl⟩ := List.mem_map.mp hp
    exact List.mem_map.mpr ⟨o, occurrences_lowerBody d.body o ho, rfl⟩
  | template tmpl =>
    intro p hp
    cases hp
  | _ => exact fun p hp => hp

/-- A word of a DOES> body as it is written: `+` is address addition there. -/
def doesSpelling (name : String) : String :=
  match emitDoesExpr (.wordRef name ⟨⟨0, 0, 0⟩, ⟨0, 0, 0⟩⟩) with
  | .word t => t.toFactorToken
  | .name s => s
  | _ => ""

/-- The names that are registered are the ones registered before and the ones given. -/
theorem contains_register {names : List (String × Span)} {words words' : Dict String Span}
    (h : register names words = .ok words') (k : String) :
    Dict.contains words' k = true ↔
      Dict.contains words k = true ∨ k ∈ names.map fun p => lower p.1 := by
  induction names generalizing words with
  | nil =>
    obtain rfl := Except.ok.inj h
    simp
  | cons p names ih =>
    obtain ⟨name, span⟩ := p
    rw [register] at h
    split at h
    · cases h
    · rw [ih h, Dict.contains_insert, Bool.or_eq_true, decide_eq_true_eq, List.map_cons,
        List.mem_cons, or_comm (a := lower name = k), or_assoc, eq_comm (a := k)]

section
variable (prior : PriorState) (prog : Program)

def knownWords : Dict String Span :=
  Dict.merge prior.userWords
    (match register (prog.items.flatMap (Item.introduced (computeClassSlots prog prior.classes))) [] with
      | .ok words => words
      | .error _ => [])

def knownValues : Dict String Span := Dict.merge prior.values (localValueNames prog.items)

def ownTarget (p : Place) : Option Target := p.own (knownWords prior prog) (knownValues prior prog)

/-- All places the resolver walks, in its order. -/
def walkedPlaces : List Place := (prog.items.flatMap Item.resolvedBodies).flatMap bodyPlaces

/-- The place that is resolved last at a span. -/
def lastPlace (span : Span) : Option Place :=
  ((walkedPlaces prog).filter fun q => q.span = span).getLast?

/-- A word reference of a DOES> body is written as its own target; nothing else of the body names
words. -/
def DoesOwn (e : Expr) : Prop :=
  match e with
  | .wordRef name span => name = "+" ∨
      (ownTarget prior prog ⟨[], name, span⟩).map Target.toFactorToken = some (doesSpelling name)
  | e => exprOccurrences e = []

/-- Every reference and tick of the program is emitted with the target of its own name. -/
structure EmitsOwn (sema : Sema) : Prop where
  bodies : ∀ item ∈ prog.items, ∀ p ∈ (Item.emittedBodies sema.wordTargets item).flatMap bodyPlaces,
    ∃ t, ownTarget prior prog p = some t ∧ emitWord sema p.name p.span = .word t
  does : ∀ ti, .templateInstance ti ∈ prog.items → ∀ e ∈ ti.doesBody, DoesOwn prior prog e

/-- Where occurrences share a span, the one that is resolved last has the target of them all. -/
structure SpansAgree (sema : Sema) : Prop where
  bodies : ∀ item ∈ prog.items, ∀ p ∈ (Item.emittedBodies sema.wordTargets item).flatMap bodyPlaces,
    ∀ q, (((walkedPlaces prog).filter fun q => q.span = p.span).getLast? = some q) →
      ownTarget prior prog q = ownTarget prior prog p
  does : ∀ ti, .templateInstance ti ∈ prog.items → ∀ e ∈ ti.doesBody, DoesOwn prior prog e

variable {prior prog}

/-- What a build records. -/
theorem build_records {source : Program} {synth synth' : Nat} {sema : Sema}
    (h : buildWithPriorState source prior synth = (.ok sema, synth'))
    (hProg : prog = (prepare source prior.templates synth).1.1) :
    (∀ p ∈ walkedPlaces prog, (ownTarget prior prog p).isSome) ∧
      ∀ span, sema.wordTargets.lookup span =
        lastAt (knownWords prior prog) (knownValues prior prog) (walkedPlaces prog) span := by
  subst hProg
  obtain ⟨words, targets, hRegister, hBodies, rfl⟩ := build_ok h
  have hKnown : knownWords prior (prepare source prior.templates synth).1.1 =
      Dict.merge prior.userWords words := by
    unfold knownWords
    rw [hRegister]
  obtain ⟨hOut, hSome⟩ := resolveBodies_records _ hBodies
  refine ⟨?_, ?_⟩
  · intro p hp
    unfold ownTarget
    rw [hKnown]
    exact hSome p hp
  · intro span
    show List.lookup span targets = _
    rw [hOut, hKnown]
    exact lookup_recorded _ span hSome

/-- A place that is walked shares its span with the one that is resolved last there. -/
theorem lastPlace_of_walked {p : Place} (h : p ∈ walkedPlaces prog) :
    ∃ q ∈ walkedPlaces prog, lastPlace prog p.span = some q := by
  have hIn : p ∈ (walkedPlaces prog).filter fun q => q.span = p.span :=
    List.mem_filter.mpr ⟨h, by simp⟩
  obtain ⟨q, hq⟩ := Option.isSome_iff_exists.mp (List.getLast?_isSome.mpr (List.ne_nil_of_mem hIn))
  exact ⟨q, (List.mem_filter.mp (List.mem_of_getLast? hq)).1, hq⟩

/-- Every place is emitted with its own target exactly when places that share a span agree. -/
theorem build_emitsOwn {source : Program} {synth synth' : Nat} {sema : Sema}
    (h : buildWithPriorState source prior synth = (.ok sema, synth'))
    (hProg : prog = (prepare source prior.templates synth).1.1) :
    EmitsOwn prior prog sema ↔ SpansAgree prior prog sema := by
  obtain ⟨hSome, hLookup⟩ := build_records h hProg
  have hPlace : ∀ item ∈ prog.items,
      ∀ p ∈ (Item.emittedBodies sema.wordTargets item).flatMap bodyPlaces,
        ((∃ t, ownTarget prior prog p = some t ∧ emitWord sema p.name p.span = .word t) ↔
          ∀ q, (((walkedPlaces prog).filter fun q => q.span = p.span).getLast? = some q) →
            ownTarget prior prog q = ownTarget prior prog p) := by
    intro item hItem p hp
    have hWalked : p ∈ walkedPlaces prog := by
      obtain ⟨b, hb, hp⟩ := List.mem_flatMap.mp (emittedBodies_places p hp)
      exact List.mem_flatMap.mpr ⟨b, List.mem_flatMap.mpr ⟨item, hItem, hb⟩, hp⟩
    obtain ⟨t, ht⟩ := Option.isSome_iff_exists.mp (hSome p hWalked)
    obtain ⟨q, hqWalked, hLast⟩ := lastPlace_of_walked hWalked
    have hq : ((walkedPlaces prog).filter fun q => q.span = p.span).getLast? = some q := hLast
    have hFound : sema.wordTargets.lookup p.span = ownTarget prior prog q := by
      rw [hLookup, lastAt, hq]
      rfl
    obtain ⟨u, hu⟩ := Option.isSome_iff_exists.mp (hSome q hqWalked)
    have hEmit : emitWord sema p.name p.span = .word u := by
      rw [emitWord, hFound, hu]
    constructor
    · rintro ⟨t', ht', hWord⟩ q' hq'
      obtain rfl := Option.some.inj (hq'.symm.trans hq)
      rw [hEmit] at hWord
      obtain rfl := Tok.word.inj hWord
      rw [hu, ht']
    · intro hAgree
      have hSame := hAgree q hq
      rw [hu, ht] at hSame
      exact ⟨t, ht, by rw [hEmit, Option.some.inj hSame]⟩
  constructor
  · intro hOwn
    exact ⟨fun item hItem p hp => (hPlace item hItem p hp).mp (hOwn.bodies item hItem p hp), hOwn.does⟩
  · intro hAgree
    exact ⟨fun item hItem p hp => (hPlace item hItem p hp).mpr (hAgree.bodies item hItem p hp),
      hAgree.does⟩

end

/-! The compile. -/

section
variable (host : Host) (fs : FileSystem) (source : String) (ctx : CompileContext) (synth : Nat)

/-- The items of a source with those of its NEEDS files in their places. -/
def mergedItems : List Item :=
  match compileItems host source with
  | .error _ => []
  | .ok items =>
    match (expandNeeds host fs none items ctx.included (buildDocs host items source)).result with
    | .error _ => []
    | .ok (items, _) => items

/-- The merged program behind the template, ?DUP and RECURSE passes. -/
def preparedProgram : Program :=
  (prepare ⟨mergedItems host fs source ctx⟩ ctx.prior.templates synth).1.1

/-- An accepted compile builds the merged items. -/
theorem analyse_build {sema : Sema} (h : (analyse host fs source ctx synth).result = .ok sema) :
    ∃ built docs synth', buildWithPriorState ⟨mergedItems host fs source ctx⟩ ctx.prior synth =
      (.ok built, synth') ∧ sema = built.forSession docs := by
  obtain ⟨own, items, docs, built, synth', hOwn, hItems, hBuild, hSema⟩ := analyse_ok host fs h
  have hMerged : mergedItems host fs source ctx = items := by
    unfold mergedItems
    rw [hOwn]
    dsimp only
    rw [hItems]
  rw [hMerged]
  exact ⟨built, _, synth', hBuild, hSema⟩

/-- What an accepted compile records. -/
theorem analyse_records {sema : Sema} (h : (analyse host fs source ctx synth).result = .ok sema) :
    let prog := preparedProgram host fs source ctx synth
    (∀ p ∈ walkedPlaces prog, (ownTarget ctx.prior prog p).isSome) ∧
      ∀ span, sema.wordTargets.lookup span =
        lastAt (knownWords ctx.prior prog) (knownValues ctx.prior prog) (walkedPlaces prog) span := by
  obtain ⟨built, docs, synth', hBuild, rfl⟩ := analyse_build host fs source ctx synth h
  have hBuilt := build_records hBuild rfl
  exact hBuilt

end

/-- A file whose `dup` stands where the main text has its `abs`. -/
def sameSpan : FileSystem :=
  ⟨[("l", ": f dup ;")], some, fun _ path => path, fun _ => none, fun _ => ""⟩

end FactorForth.Correctness
