import FactorForth.Correctness.ControlFlow

/-! Counted loops: the emitted loop against the ANS rule, by which a loop ends when its index crosses
the boundary between `limit - 1` and `limit`, in either direction. -/

namespace FactorForth.Correctness
open FactorForth.Library FactorForth.Compiler FactorForth.Semantics
variable {Obj World : Type}

/-! The words of `forth.runtime` on loop frames. -/

def loopIndex (m : Machine Obj World) : Option (Machine Obj World) :=
  m.frames.head?.map fun frame => { m with stack := .int frame.index :: m.stack }

def outerIndex (m : Machine Obj World) : Option (Machine Obj World) :=
  m.frames[1]?.map fun frame => { m with stack := .int frame.index :: m.stack }

def leaveLoop (m : Machine Obj World) : Option (Machine Obj World) :=
  match m.frames with
  | frame :: frames => some { m with frames := { frame with left := true } :: frames }
  | [] => none

def dropFrame (m : Machine Obj World) : Option (Machine Obj World) :=
  match m.frames with
  | _ :: frames => some { m with frames := frames }
  | [] => none

/-- `I`, `J`, `LEAVE` and `UNLOOP` are the words of the runtime. -/
structure LoopWords (V : Vm Obj World) : Prop where
  i : ∀ m m', V.word (.qualifiedBuiltin "forth.runtime" "i") m m' ↔ loopIndex m = some m'
  j : ∀ m m', V.word (.qualifiedBuiltin "forth.runtime" "j") m m' ↔ outerIndex m = some m'
  leave : ∀ m m', V.word (.qualifiedBuiltin "forth.runtime" "leave") m m' ↔ leaveLoop m = some m'
  unloop : ∀ m m',
    V.word (.qualifiedBuiltin "forth.runtime" "pop-loop-frame") m m' ↔ dropFrame m = some m'

/-! The ANS rule. -/

def Crosses (limit index newIndex : Int) : Prop :=
  (index < limit ∧ limit ≤ newIndex) ∨ (limit ≤ index ∧ newIndex < limit)

instance (limit index newIndex : Int) : Decidable (Crosses limit index newIndex) :=
  inferInstanceAs (Decidable (_ ∨ _))

/-- Step the innermost index. The loop is over when the index crosses, or when LEAVE has run. -/
def ansBump (delta : Int) : Command Obj World Bool := Cmd.ofOption fun s =>
  match s.frames with
  | frame :: frames =>
    if frame.left then some (true, s)
    else
      let newIndex := frame.index + delta
      some (decide (Crosses frame.limit frame.index newIndex),
        { s with frames := { frame with index := newIndex } :: frames })
  | [] => none

def ansPass (loopKind : LoopKind) (body : Command Obj World PUnit) : Command Obj World Bool := do
  inScope body
  let delta ← loopStep loopKind
  let done ← ansBump delta
  pure !done

/-- `DO … LOOP` and its kin: ?DO with equal bounds runs no pass, DO runs one at least. -/
def ansLoop (isQdo : Bool) (loopKind : LoopKind) (body : Command Obj World PUnit) :
    Command Obj World PUnit := do
  let start ← popInt
  let limit ← popInt
  if isQdo = true ∧ limit = start then pure ⟨⟩
  else
    pushLoopFrame limit start
    let _ ← Cmd.loop (ansPass loopKind body)
    popLoopFrame

/-- The body leaves the frame of its loop in place; LEAVE may have marked it, and marks stay. -/
def KeepsFrame (c : Command Obj World PUnit) : Prop :=
  ∀ s t frame frames, s.frames = frame :: frames → c s (.ok ⟨⟩ t) →
    ∃ left, t.frames = { frame with left := left } :: frames ∧ (frame.left = true → left = true)

/-- The slots for loop frames. -/
def frameCapacity : Nat := 32

/-- With these bounds the emitted loop is the ANS loop, whatever its body does. -/
def VisitsAns (V : Vm Obj World) (isQdo : Bool) (limit start : Int) : Prop :=
  ∀ (r : Sema) (body : List Expr) (loopKind : LoopKind) (span : Span) (s : State Obj World)
    (st : List (Value Obj)), KeepsFrame (run V (emitExprs r body)) →
    s.stack = .int start :: .int limit :: st → s.frames.length < frameCapacity →
    run V (emitExpr r (.doLoop isQdo body loopKind span)) s =
      ansLoop isQdo loopKind (run V (emitExprs r body)) s

section
variable {V : Vm Obj World}

theorem inScope_frames {c : Command Obj World PUnit} (hc : KeepsFrame c) :
    KeepsFrame (inScope c) := by
  intro s t frame frames hs hrun
  obtain ⟨env, s₁, henv, hrun⟩ := Cmd.bind_ok.1 hrun
  obtain ⟨⟨⟩, s₂, hbody, hrun⟩ := Cmd.bind_ok.1 hrun
  obtain ⟨u, s₃, hset, hrun⟩ := Cmd.bind_ok.1 hrun
  obtain ⟨p, hp, hout⟩ := henv
  obtain rfl := Option.some.inj hp
  obtain ⟨-, hSame⟩ := Out.ok.inj hout
  rw [hSame] at hbody
  obtain ⟨left, hleft⟩ := hc s s₂ frame frames hs hbody
  obtain ⟨q, hq, hout⟩ := hset
  obtain rfl := Option.some.inj hq
  obtain ⟨-, hLast⟩ := Out.ok.inj hout
  cases hrun
  rw [hLast]
  exact ⟨left, hleft⟩

theorem loopStep_frames {loopKind : LoopKind} {s t : State Obj World} {delta : Int}
    (h : loopStep loopKind s (.ok delta t)) : t.frames = s.frames := by
  cases loopKind with
  | plus1 =>
    cases h
    rfl
  | plusN =>
    obtain ⟨p, hp, hout⟩ := h
    obtain ⟨rfl, rfl⟩ := Out.ok.inj hout
    dsimp only at hp
    split at hp
    · obtain rfl := Option.some.inj hp
      rfl
    · cases hp

/-- A pass in progress: the frame of the loop lies on the frames of its entry. -/
def InPass (limit : Int) (frames : List LoopFrame) (s : State Obj World) : Prop :=
  ∃ index, s.frames = ⟨limit, index, false⟩ :: frames

/-- The same, the index being below the limit. -/
def BelowLimit (limit : Int) (frames : List LoopFrame) (s : State Obj World) : Prop :=
  ∃ index, s.frames = ⟨limit, index, false⟩ :: frames ∧ index < limit

theorem bumpLoop_more {delta : Int} {s t : State Obj World} {limit index : Int} {left : Bool}
    {frames : List LoopFrame} (hs : s.frames = ⟨limit, index, left⟩ :: frames)
    (h : bumpLoop delta s (.ok false t)) :
    left = false ∧ t.frames = ⟨limit, index + delta, false⟩ :: frames ∧ index + delta < limit := by
  obtain ⟨p, hp, hout⟩ := h
  dsimp only at hp
  rw [hs] at hp
  cases left with
  | true =>
    obtain rfl := Option.some.inj hp
    cases hout
  | false =>
    obtain rfl := Option.some.inj hp
    simp only [Out.ok.injEq] at hout
    obtain ⟨hdone, rfl⟩ := hout
    refine ⟨rfl, rfl, ?_⟩
    exact Int.not_le.mp (of_decide_eq_false hdone.symm)

/-- A pass that asks for more has stepped the index, which is below the limit. -/
theorem countedPass_more {loopKind : LoopKind} {body : Command Obj World PUnit}
    (hBody : KeepsFrame body) {limit : Int} {frames : List LoopFrame} {s t : State Obj World}
    (hs : InPass limit frames s) (h : countedPass loopKind body s (.ok true t)) :
    BelowLimit limit frames t := by
  obtain ⟨index, hIndex⟩ := hs
  obtain ⟨⟨⟩, s₁, hRun, h⟩ := Cmd.bind_ok.1 h
  obtain ⟨delta, s₂, hStep, h⟩ := Cmd.bind_ok.1 h
  obtain ⟨done, s₃, hBump, h⟩ := Cmd.bind_ok.1 h
  simp only [Cmd.pure_apply, Out.ok.injEq] at h
  obtain ⟨hDone, rfl⟩ := h
  have hMore : done = false := by
    cases done with
    | true => cases hDone
    | false => rfl
  subst hMore
  obtain ⟨left, hLeft, -⟩ := inScope_frames hBody s s₁ _ frames hIndex hRun
  rw [← loopStep_frames hStep] at hLeft
  obtain ⟨-, hFrames, hBelow⟩ := bumpLoop_more hLeft hBump
  exact ⟨index + delta, hFrames, hBelow⟩

/-- Below the limit the runtime's test is the ANS rule. -/
theorem bump_ans {delta : Int} {s : State Obj World} {limit index : Int} {left : Bool}
    {frames : List LoopFrame} (hs : s.frames = ⟨limit, index, left⟩ :: frames)
    (hBelow : index < limit) : bumpLoop delta s = ansBump delta s := by
  have hSame : decide (limit ≤ index + delta) = decide (Crosses limit index (index + delta)) := by
    apply decide_eq_decide.mpr
    unfold Crosses
    constructor
    · exact fun h => .inl ⟨hBelow, h⟩
    · rintro (⟨-, h⟩ | ⟨h, -⟩)
      · exact h
      · exact absurd hBelow (Int.not_lt.mpr h)
  unfold bumpLoop ansBump Cmd.ofOption
  dsimp only
  rw [hs]
  dsimp only
  rw [hSame]

theorem countedPass_ans {loopKind : LoopKind} {body : Command Obj World PUnit}
    (hBody : KeepsFrame body) {limit : Int} {frames : List LoopFrame} {s : State Obj World}
    (hs : BelowLimit limit frames s) : countedPass loopKind body s = ansPass loopKind body s := by
  obtain ⟨index, hIndex, hBelow⟩ := hs
  have hBump : ∀ s₁ s₂ delta, inScope body s (.ok ⟨⟩ s₁) →
      loopStep loopKind s₁ (.ok delta s₂) → bumpLoop delta s₂ = ansBump delta s₂ := by
    intro s₁ s₂ delta hRun hStep
    obtain ⟨left, hLeft, -⟩ := inScope_frames hBody s s₁ _ frames hIndex hRun
    rw [← loopStep_frames hStep] at hLeft
    exact bump_ans hLeft hBelow
  unfold countedPass ansPass
  refine Cmd.bind_at_ok fun _ s₁ hRun => Cmd.bind_at_ok fun delta s₂ hStep => ?_
  exact Cmd.bind_at (hBump s₁ s₂ delta hRun hStep) _

theorem pushLoopFrame_bind {α : Type} (limit start : Int) (f : PUnit → Command Obj World α)
    (s : State Obj World) : (pushLoopFrame limit start >>= f) s =
      f ⟨⟩ { s with frames := ⟨limit, start, false⟩ :: s.frames } := by
  unfold pushLoopFrame
  rw [Cmd.ofOption_bind_some rfl]

/-- The state in which the first pass of a loop starts. -/
def entered (s : State Obj World) (limit start : Int) (st : List (Value Obj)) : State Obj World :=
  { s with stack := st, frames := ⟨limit, start, false⟩ :: s.frames }

section Bounds
variable {s : State Obj World} {limit start : Int} {st : List (Value Obj)}
variable (hs : s.stack = .int start :: .int limit :: st)
include hs

theorem countedLoop_at (loopKind : LoopKind) (body : Command Obj World PUnit) :
    (countedLoop loopKind body >>= fun _ => pure ⟨⟩) s =
      (Cmd.loop (countedPass loopKind body) >>= fun _ => popLoopFrame) (entered s limit start st) := by
  unfold countedLoop
  rw [bind_assoc, popInt_bind hs, bind_assoc, popInt_bind rfl, bind_assoc, pushLoopFrame_bind,
    bind_assoc]
  refine Cmd.bind_at_ok fun n t _ => ?_
  rw [bind_assoc]
  simp only [pure_bind]
  exact congrFun (Cmd.bind_pure popLoopFrame) t

theorem ansLoop_at (isQdo : Bool) (loopKind : LoopKind) (body : Command Obj World PUnit) :
    ansLoop isQdo loopKind body s =
      if isQdo = true ∧ limit = start then (pure ⟨⟩ : Command Obj World PUnit) { s with stack := st }
      else (Cmd.loop (ansPass loopKind body) >>= fun _ => popLoopFrame) (entered s limit start st) := by
  unfold ansLoop
  rw [popInt_bind hs, popInt_bind rfl]
  split
  · rfl
  · rw [pushLoopFrame_bind]
    rfl

theorem emitted_at (r : Sema) (isQdo : Bool) (body : List Expr) (loopKind : LoopKind)
    (span : Span) : run V (emitExpr r (.doLoop isQdo body loopKind span)) s =
      if isQdo = true ∧ limit = start then (pure ⟨⟩ : Command Obj World PUnit) { s with stack := st }
      else (Cmd.loop (countedPass loopKind (run V (emitExprs r body))) >>= fun _ => popLoopFrame)
        (entered s limit start st) := by
  rw [run_emitExpr V r [], execExpr, ← run_emitExprs V r []]
  have hGuard : (fun n : Nat => Cmd.guard fun _ : State Obj World =>
      (Rules.free true : Rules Obj World).passes (.doLoop isQdo body loopKind span) n) =
      fun _ => pure ⟨⟩ := funext fun n => Cmd.guard_of fun _ => trivial
  rw [hGuard]
  cases isQdo with
  | false =>
    rw [if_neg (fun h => nomatch h.1)]
    exact countedLoop_at hs loopKind _
  | true =>
    unfold enterLoop
    rw [if_pos rfl, bind_assoc, pop_bind hs, bind_assoc, pop_bind rfl]
    have hEqual : V.equal (.int limit) (.int start) = decide (limit = start) := rfl
    rw [hEqual]
    by_cases hBounds : limit = start
    · rw [if_pos (decide_eq_true hBounds), if_pos ⟨rfl, hBounds⟩, pure_bind]
    · rw [if_neg (fun h => hBounds (of_decide_eq_true h)), if_neg (fun h => hBounds h.2),
        bind_assoc, push_bind, bind_assoc, push_bind]
      have hRestored : ({ s with stack := .int start :: .int limit :: st } : State Obj World) = s := by
        rw [← hs]
      exact (congrArg _ hRestored).trans (countedLoop_at hs loopKind _)

end Bounds

/-- The emitted loop is the ANS loop where the index starts below the limit, or no pass is run. -/
theorem visitsAns_of {isQdo : Bool} {limit start : Int}
    (h : start < limit ∨ (isQdo = true ∧ start = limit)) : VisitsAns V isQdo limit start := by
  intro r body loopKind span s st hBody hs _
  rw [emitted_at hs, ansLoop_at hs]
  split
  · rfl
  · next hPasses =>
    have hBelow : start < limit := h.resolve_right fun hq => hPasses ⟨hq.1, hq.2.symm⟩
    have hStart : BelowLimit limit s.frames (entered s limit start st) := ⟨start, rfl, hBelow⟩
    have hMore : ∀ t u, BelowLimit limit s.frames t →
        countedPass loopKind (run V (emitExprs r body)) t (.ok true u) →
        BelowLimit limit s.frames u := by
      intro t u ht hPass
      obtain ⟨index, hIndex, -⟩ := ht
      exact countedPass_more hBody ⟨index, hIndex⟩ hPass
    have hLoop := Cmd.loop_congr (fun t ht => countedPass_ans hBody ht) hMore
      hStart
    exact Cmd.bind_at hLoop _

/-- The index is at the limit or above it. -/
def AboveLimit (limit : Int) (frames : List LoopFrame) (s : State Obj World) : Prop :=
  ∃ index, s.frames = ⟨limit, index, false⟩ :: frames ∧ limit ≤ index

/-- A pass of `DO LOOP` only steps the index. -/
theorem emptyPass (bump : Int → Command Obj World Bool) (s : State Obj World) :
    (do
      inScope (pure ⟨⟩ : Command Obj World PUnit)
      let delta ← loopStep .plus1
      let done ← bump delta
      pure !done : Command Obj World Bool) s = (bump 1 >>= fun done => pure !done) s := by
  unfold inScope loopStep
  simp only [bind_assoc, pure_bind]
  rw [getEnv_bind, setEnv_bind]

/-- By the ANS rule an index at the limit or above is stepped on and on. -/
theorem emptyPass_above {limit : Int} {frames : List LoopFrame} {s t : State Obj World} {b : Bool}
    (hs : AboveLimit limit frames s)
    (h : ansPass .plus1 (pure ⟨⟩ : Command Obj World PUnit) s (.ok b t)) :
    b = true ∧ AboveLimit limit frames t := by
  obtain ⟨index, hIndex, hLe⟩ := hs
  unfold ansPass at h
  rw [emptyPass] at h
  obtain ⟨done, u, ⟨p, hp, hOut⟩, hEnd⟩ := Cmd.bind_ok.1 h
  dsimp only at hp
  rw [hIndex] at hp
  obtain rfl := Option.some.inj hp
  obtain ⟨rfl, rfl⟩ := Out.ok.inj hOut
  obtain ⟨rfl, rfl⟩ := Out.ok.inj hEnd
  have hStays : decide (Crosses limit index (index + 1)) = false := by
    apply decide_eq_false
    unfold Crosses
    omega
  refine ⟨?_, index + 1, rfl, by omega⟩
  rw [hStays]
  rfl

/-- An empty `LOOP` that starts at the limit or above ends after one pass, and by the ANS rule not
at all. -/
theorem not_visitsAns {isQdo : Bool} {limit start : Int} (hLimit : limit ≤ start)
    (hPasses : ¬ (isQdo = true ∧ limit = start)) (s : State Obj World) (hRoom : s.frames = []) :
    ¬ VisitsAns V isQdo limit start := by
  intro h
  let t : State Obj World := { s with stack := [.int start, .int limit] }
  have hEmpty : run V (emitExprs (bareSema []) []) = pure ⟨⟩ := by
    rw [emitExprs]
    exact run_nil V
  have hBody : KeepsFrame (run V (emitExprs (bareSema []) [])) := by
    rw [hEmpty]
    intro s' t' frame frames hs' hrun
    cases hrun
    exact ⟨frame.left, hs', id⟩
  have hSame := h (bareSema []) [] .plus1 (tokenSpan 1) t [] hBody rfl (by
    show s.frames.length < frameCapacity
    rw [hRoom]
    decide)
  have hStack : t.stack = .int start :: .int limit :: [] := rfl
  rw [emitted_at hStack, ansLoop_at hStack, if_neg hPasses, if_neg hPasses, hEmpty] at hSame
  let e := entered t limit start []
  have hCode : (Cmd.loop (countedPass .plus1 (pure ⟨⟩)) >>= fun _ => popLoopFrame) e
      (.ok ⟨⟩ { e with frames := s.frames }) := by
    refine Cmd.bind_ok.2 ⟨1, { e with frames := ⟨limit, start + 1, false⟩ :: s.frames }, ?_, ?_⟩
    · rw [Cmd.loop_eq, Cmd.next_apply]
      refine .inl ⟨_, ?_, rfl⟩
      unfold countedPass
      rw [emptyPass]
      refine Cmd.bind_ok.2 ⟨true, _, ⟨(true, _), ?_, rfl⟩, rfl⟩
      have hDone : decide (limit ≤ start + 1) = true := decide_eq_true (by omega)
      show some (decide (limit ≤ start + 1), _) = _
      rw [hDone]
    · exact ⟨(⟨⟩, _), rfl, rfl⟩
  rw [hSame] at hCode
  obtain ⟨n, u, hLoop, -⟩ := Cmd.bind_ok.1 hCode
  have hAbove : AboveLimit limit s.frames e := ⟨start, rfl, hLimit⟩
  obtain ⟨v, hv, hLast⟩ := Cmd.loop_ok (fun v w hv hPass => (emptyPass_above hv hPass).2) hLoop hAbove
  exact nomatch (emptyPass_above hv hLast).1

/-! The words that read the frames. -/

theorem reference_at {t : Target} {m' : Machine Obj World} (hLocal : ∀ n, t ≠ .local_ n)
    (hExit : t ≠ .exit) (s : State Obj World) (h : ∀ m, V.word t s.toMachine m ↔ m' = m) :
    V.reference t s = (pure ⟨⟩ : Command Obj World PUnit) ⟨m', s.env⟩ := by
  have href : V.reference t = onMachine (V.word t) := by
    unfold Vm.reference
    split
    · next n => exact absurd rfl (hLocal n)
    · exact if_neg hExit
  rw [href]
  funext out
  refine propext ⟨?_, ?_⟩
  · rintro ⟨⟨machine, env⟩, ⟨hWord, hEnv⟩, rfl⟩
    obtain rfl := (h machine).1 hWord
    have hEnv' : env = s.env := hEnv
    rw [hEnv']
    rfl
  · rintro rfl
    exact ⟨⟨m', s.env⟩, ⟨(h m').2 rfl, rfl⟩, rfl⟩

/-- In every pass `I` reads the index of its loop and `J` that of the loop around it. -/
def ReadsIndices (V : Vm Obj World) : Prop :=
  ∀ (loopKind : LoopKind) (body : Command Obj World PUnit) (limit start : Int)
    (s : State Obj World) (st : List (Value Obj)) (u : State Obj World), KeepsFrame body →
    Cmd.Starts (countedPass loopKind body) (entered s limit start st) u →
    ∃ index, u.frames = ⟨limit, index, false⟩ :: s.frames ∧
      V.reference (.qualifiedBuiltin "forth.runtime" "i") u = push (.int index) u ∧
      ∀ outer outers, s.frames = outer :: outers →
        V.reference (.qualifiedBuiltin "forth.runtime" "j") u = push (.int outer.index) u

theorem readsIndices (hV : LoopWords V) : ReadsIndices V := by
  intro loopKind body limit start s st u hBody hStarts
  have hPass : InPass limit s.frames u := by
    refine hStarts.keeps ?_ ⟨start, rfl⟩
    intro v w hv hMore
    obtain ⟨index, hIndex, -⟩ := countedPass_more hBody hv hMore
    exact ⟨index, hIndex⟩
  obtain ⟨index, hIndex⟩ := hPass
  refine ⟨index, hIndex, ?_, ?_⟩
  · rw [push_apply]
    refine reference_at (fun n => Target.noConfusion) (by decide) u fun m => ?_
    rw [hV.i, loopIndex, hIndex]
    exact Option.some_inj
  · intro outer outers hOuter
    rw [push_apply]
    refine reference_at (fun n => Target.noConfusion) (by decide) u fun m => ?_
    rw [hV.j, outerIndex, hIndex, hOuter]
    exact Option.some_inj

/-- `LEAVE` marks the innermost loop, and no pass follows one that ends marked. -/
def LeaveStops (V : Vm Obj World) : Prop :=
  (∀ (s : State Obj World) (frame : LoopFrame) (frames : List LoopFrame),
    s.frames = frame :: frames →
    V.reference (.qualifiedBuiltin "forth.runtime" "leave") s =
      (pure ⟨⟩ : Command Obj World PUnit)
        { s with frames := { frame with left := true } :: frames }) ∧
  ∀ (loopKind : LoopKind) (body : Command Obj World PUnit) (s u : State Obj World),
    (∀ t, inScope body s (.ok ⟨⟩ t) → ∃ frame frames, t.frames = frame :: frames ∧
      frame.left = true) → ¬ countedPass loopKind body s (.ok true u)

theorem leaveStops (hV : LoopWords V) : LeaveStops V := by
  constructor
  · intro s frame frames hs
    refine reference_at (fun n => Target.noConfusion) (by decide) s fun m => ?_
    rw [hV.leave, leaveLoop, hs]
    exact Option.some_inj
  · intro loopKind body s u hMarked hPass
    obtain ⟨⟨⟩, s₁, hRun, hPass⟩ := Cmd.bind_ok.1 hPass
    obtain ⟨delta, s₂, hStep, hPass⟩ := Cmd.bind_ok.1 hPass
    obtain ⟨done, s₃, hBump, hPass⟩ := Cmd.bind_ok.1 hPass
    obtain ⟨hDone, -⟩ := Out.ok.inj hPass
    obtain ⟨⟨limit, index, left⟩, frames, hFrames, hLeft⟩ := hMarked s₁ hRun
    rw [← loopStep_frames hStep] at hFrames
    cases done with
    | true => cases hDone
    | false =>
      obtain ⟨hUnmarked, -⟩ := bumpLoop_more hFrames hBump
      exact absurd (hLeft.symm.trans hUnmarked) Bool.noConfusion

end

/-- The machine with the integers, and the words on loop frames. -/
def loopVm : Vm Unit Unit where
  word
    | .qualifiedBuiltin "forth.runtime" "i", m, m' => loopIndex m = some m'
    | .qualifiedBuiltin "forth.runtime" "j", m, m' => outerIndex m = some m'
    | .qualifiedBuiltin "forth.runtime" "leave", m, m' => leaveLoop m = some m'
    | .qualifiedBuiltin "forth.runtime" "pop-loop-frame", m, m' => dropFrame m = some m'
    | t, m, m' => coreVm.word t m m'
  name _ _ _ := False
  letForm _ _ _ := False
  symbol _ := ()
  str _ := ()
  float _ := ()
  isZero _ := false
  same _ _ := false

theorem loopVm_words : LoopWords loopVm :=
  ⟨fun _ _ => Iff.rfl, fun _ _ => Iff.rfl, fun _ _ => Iff.rfl, fun _ _ => Iff.rfl⟩

end FactorForth.Correctness
