import FactorForth.Semantics.Machine

/-! The return stack and the loop frames of `forth.runtime`: arrays that the words read and write without
bounds checks, shared by all evals of a session. -/

namespace FactorForth.Runtime
open FactorForth.Semantics
variable {α : Type}

/-! An fstack and its words. -/

/-- `f` stands in the slots that have not been written. -/
structure Fstack (α : Type) where
  storage : List (Option α)
  top : Int

def newFstack (capacity : Nat) : Fstack α := ⟨List.replicate capacity none, 0⟩

/-- An unsafe read or write of an array. -/
structure Access where
  index : Int
  capacity : Nat
  deriving DecidableEq

def Access.Inside (a : Access) : Prop := 0 ≤ a.index ∧ a.index < a.capacity

instance (a : Access) : Decidable a.Inside := inferInstanceAs (Decidable (_ ∧ _))

namespace Fstack
variable (fs : Fstack α)

def access (index : Int) : Access := ⟨index, fs.storage.length⟩

/-- What an access inside the array reads. -/
def slot (index : Int) : Option α := if 0 ≤ index then fs.storage[index.toNat]?.join else none

/-- The array after a write; a write outside it changes memory that is not the stack's. -/
def setSlot (index : Int) (x : α) : List (Option α) :=
  if 0 ≤ index then fs.storage.set index.toNat (some x) else fs.storage

def push (x : α) : Fstack α := ⟨fs.setSlot fs.top x, fs.top + 1⟩

def drop : Fstack α := ⟨fs.storage, fs.top - 1⟩

def pop : Option α × Fstack α := (fs.slot (fs.top - 1), fs.drop)

def peek : Option α := fs.slot (fs.top - 1)

/-- A change of the topmost tuple in its place. -/
def change (f : α → α) : Fstack α :=
  match fs.peek with
  | some x => ⟨fs.setSlot (fs.top - 1) (f x), fs.top⟩
  | none => fs

theorem length_setSlot (index : Int) (x : α) :
    (fs.setSlot index x).length = fs.storage.length := by
  unfold setSlot
  split
  · exact List.length_set
  · rfl

theorem change_top (f : α → α) : (fs.change f).top = fs.top := by
  unfold change
  split
  · rfl
  · rfl

theorem change_length (f : α → α) : (fs.change f).storage.length = fs.storage.length := by
  unfold change
  split
  · exact fs.length_setSlot _ _
  · rfl

end Fstack

/-! The words of the two stacks. -/

def returnCapacity : Nat := 256

def frameCapacity : Nat := 32

structure Stacks where
  returns : Fstack Int
  frames : Fstack LoopFrame

/-- Both stacks as they are made at their first use. -/
def Stacks.fresh : Stacks := ⟨newFstack returnCapacity, newFstack frameCapacity⟩

inductive Word where
  | toR
  | rFrom
  | rFetch
  | rDrop
  | twoToR
  | twoRFrom
  | pushLoopFrame
  | popLoopFrame
  | bumpLoop
  | i
  | j
  | leave
  deriving DecidableEq

/-- The words on the stacks in the order they ran, with the items they took from the data stack. -/
structure Event where
  word : Word
  a : Int
  b : Int

def bumpFrame (delta : Int) (frame : LoopFrame) : LoopFrame :=
  if frame.left then frame else { frame with index := frame.index + delta }

def Event.apply (e : Event) (s : Stacks) : Stacks :=
  match e.word with
  | .toR => { s with returns := s.returns.push e.a }
  | .rFrom => { s with returns := s.returns.pop.2 }
  | .rDrop => { s with returns := s.returns.drop }
  | .twoToR => { s with returns := (s.returns.push e.a).push e.b }
  | .twoRFrom => { s with returns := s.returns.pop.2.pop.2 }
  | .pushLoopFrame => { s with frames := s.frames.push ⟨e.a, e.b, false⟩ }
  | .popLoopFrame => { s with frames := s.frames.drop }
  | .bumpLoop => { s with frames := s.frames.change (bumpFrame e.a) }
  | .leave => { s with frames := s.frames.change fun frame => { frame with left := true } }
  | .rFetch => s
  | .i => s
  | .j => s

/-- The unsafe accesses of a word, in their order. -/
def Word.accesses (w : Word) (s : Stacks) : List Access :=
  let returns := s.returns.top
  let frames := s.frames.top
  match w with
  | .toR => [s.returns.access returns]
  | .rFrom => [s.returns.access (returns - 1)]
  | .rFetch => [s.returns.access (returns - 1)]
  | .twoToR => [s.returns.access returns, s.returns.access (returns + 1)]
  | .twoRFrom => [s.returns.access (returns - 1), s.returns.access (returns - 2)]
  | .pushLoopFrame => [s.frames.access frames]
  | .bumpLoop => [s.frames.access (frames - 1)]
  | .i => [s.frames.access (frames - 1)]
  | .j => [s.frames.access (frames - 2)]
  | .leave => [s.frames.access (frames - 1)]
  | .rDrop => []
  | .popLoopFrame => []

def replay : List Event → Stacks → Stacks
  | [], s => s
  | e :: es, s => replay es (e.apply s)

def accesses : List Event → Stacks → List Access
  | [], _ => []
  | e :: es, s => e.word.accesses s ++ accesses es (e.apply s)

/-! The code of an eval. -/

/-- Code as the compiler emits it, by what it does to the two stacks. A CASE is a nest of branches, and
EXECUTE a branch among the words whose tokens the program takes. -/
inductive Code where
  | nop
  | word (w : Word)
  | other (name : String)
  | call (name : String)
  | exit
  | seq (first second : Code)
  | ifElse (thenBody elseBody : Code)
  | begin_ (pred body : Code)
  | passes (body : Code)

/-- `do-loop` of the runtime. -/
def Code.doLoop (body : Code) : Code :=
  .seq (.word .pushLoopFrame) (.seq (.passes body) (.word .popLoopFrame))

def Code.qdoLoop (body : Code) : Code := .ifElse .nop (.doLoop body)

inductive End where
  | done
  | exited
  | failed
  deriving DecidableEq

/-- The runs of a code. The data decide which branch is taken, how many passes a loop makes and where a
word fails; every such run is one here. -/
inductive Trace (defs : String → Code) : Code → List Event → End → Prop where
  | failed (c : Code) : Trace defs c [] .failed
  | nop : Trace defs .nop [] .done
  | word (w : Word) (a b : Int) : Trace defs (.word w) [⟨w, a, b⟩] .done
  | other (name : String) : Trace defs (.other name) [] .done
  | exit : Trace defs .exit [] .exited
  | call {name : String} {es : List Event} {e : End} : Trace defs (defs name) es e →
      e ≠ .failed → Trace defs (.call name) es .done
  | callFailed {name : String} {es : List Event} : Trace defs (defs name) es .failed →
      Trace defs (.call name) es .failed
  | seq {c d : Code} {es fs : List Event} {e : End} : Trace defs c es .done →
      Trace defs d fs e → Trace defs (.seq c d) (es ++ fs) e
  | seqStops {c d : Code} {es : List Event} {e : End} : Trace defs c es e → e ≠ .done →
      Trace defs (.seq c d) es e
  | thenBody {c d : Code} {es : List Event} {e : End} : Trace defs c es e →
      Trace defs (.ifElse c d) es e
  | elseBody {c d : Code} {es : List Event} {e : End} : Trace defs d es e →
      Trace defs (.ifElse c d) es e
  | beginEnds {c d : Code} {es : List Event} {e : End} : Trace defs c es e →
      Trace defs (.begin_ c d) es e
  | beginAgain {c d : Code} {es fs : List Event} {e : End} : Trace defs (.seq c d) es .done →
      Trace defs (.begin_ c d) fs e → Trace defs (.begin_ c d) (es ++ fs) e
  | beginStops {c d : Code} {es : List Event} {e : End} : Trace defs (.seq c d) es e → e ≠ .done →
      Trace defs (.begin_ c d) es e
  | passStops {c : Code} {es : List Event} {e : End} : Trace defs c es e → e ≠ .done →
      Trace defs (.passes c) es e
  | lastPass {c : Code} {es : List Event} {e : End} :
      Trace defs (.seq c (.word .bumpLoop)) es e → Trace defs (.passes c) es e
  | morePasses {c : Code} {es fs : List Event} {e : End} :
      Trace defs (.seq c (.word .bumpLoop)) es .done → Trace defs (.passes c) fs e →
      Trace defs (.passes c) (es ++ fs) e

/-- One command of the listener, with the words it ran. -/
structure Eval where
  defs : String → Code
  code : Code
  events : List Event
  ending : End
  runs : Trace defs code events ending

/-- After each eval the loop frames are as deep as before it, and every access is inside its array. -/
def Sound : List Eval → Stacks → Prop
  | [], _ => True
  | ev :: evs, s =>
    (replay ev.events s).frames.top = s.frames.top ∧ (∀ a ∈ accesses ev.events s, a.Inside) ∧
      Sound evs (replay ev.events s)

/-! The items that are open: put on a stack and not yet taken. -/

structure Open where
  returns : Int
  loops : Int
  deriving DecidableEq

def Word.count (w : Word) (c : Open) : Open :=
  match w with
  | .toR => { c with returns := c.returns + 1 }
  | .rFrom => { c with returns := c.returns - 1 }
  | .rDrop => { c with returns := c.returns - 1 }
  | .twoToR => { c with returns := c.returns + 2 }
  | .twoRFrom => { c with returns := c.returns - 2 }
  | .pushLoopFrame => { c with loops := c.loops + 1 }
  | .popLoopFrame => { c with loops := c.loops - 1 }
  | _ => c

/-- The word finds its items open, and what it opens has room. -/
def Word.Allowed (w : Word) (c : Open) : Prop :=
  match w with
  | .toR => 0 ≤ c.returns ∧ c.returns < 256
  | .rFrom => 0 < c.returns ∧ c.returns ≤ 256
  | .rFetch => 0 < c.returns ∧ c.returns ≤ 256
  | .twoToR => 0 ≤ c.returns ∧ c.returns < 255
  | .twoRFrom => 1 < c.returns ∧ c.returns ≤ 256
  | .pushLoopFrame => 0 ≤ c.loops ∧ c.loops < 32
  | .bumpLoop => 0 < c.loops ∧ c.loops ≤ 32
  | .i => 0 < c.loops ∧ c.loops ≤ 32
  | .j => 1 < c.loops ∧ c.loops ≤ 33
  | .leave => 0 < c.loops ∧ c.loops ≤ 32
  | .rDrop => True
  | .popLoopFrame => True

def countAll : List Event → Open → Open
  | [], c => c
  | e :: es, c => countAll es (e.word.count c)

def AllAllowed : List Event → Open → Prop
  | [], _ => True
  | e :: es, c => e.word.Allowed c ∧ AllAllowed es (e.word.count c)

/-- Every word finds its items and has room, and no eval ends inside a loop of its own. -/
def Guarded : List Eval → Open → Prop
  | [], _ => True
  | ev :: evs, c =>
    (countAll ev.events c).loops = c.loops ∧ AllAllowed ev.events c ∧
      Guarded evs (countAll ev.events c)

theorem countAll_append (es fs : List Event) (c : Open) :
    countAll (es ++ fs) c = countAll fs (countAll es c) := by
  induction es generalizing c with
  | nil => rfl
  | cons e es ih => exact ih _

theorem allAllowed_append (es fs : List Event) (c : Open) :
    AllAllowed (es ++ fs) c ↔ AllAllowed es c ∧ AllAllowed fs (countAll es c) := by
  induction es generalizing c with
  | nil => exact (true_and _).symm.to_iff
  | cons e es ih =>
    show e.word.Allowed c ∧ AllAllowed (es ++ fs) _ ↔ _
    rw [ih]
    exact and_assoc.symm

/-! The tops of the stacks are the numbers of open items. -/

structure Counted (s : Stacks) (c : Open) : Prop where
  returns : s.returns.top = c.returns
  frames : s.frames.top = c.loops
  returnRoom : s.returns.storage.length = 256
  frameRoom : s.frames.storage.length = 32

theorem fresh_counted : Counted Stacks.fresh ⟨0, 0⟩ :=
  ⟨rfl, rfl, List.length_replicate, List.length_replicate⟩

theorem apply_counted {s : Stacks} {c : Open} (h : Counted s c) (e : Event) :
    Counted (e.apply s) (e.word.count c) := by
  obtain ⟨hReturns, hFrames, hReturnRoom, hFrameRoom⟩ := h
  obtain ⟨w, a, b⟩ := e
  cases w with
  | toR =>
    exact ⟨congrArg (· + 1) hReturns, hFrames, (Fstack.length_setSlot _ _ _).trans hReturnRoom,
      hFrameRoom⟩
  | rFrom => exact ⟨congrArg (· - 1) hReturns, hFrames, hReturnRoom, hFrameRoom⟩
  | rDrop => exact ⟨congrArg (· - 1) hReturns, hFrames, hReturnRoom, hFrameRoom⟩
  | twoToR =>
    refine ⟨?_, hFrames, ?_, hFrameRoom⟩
    · show s.returns.top + 1 + 1 = c.returns + 2
      omega
    · exact ((Fstack.length_setSlot _ _ _).trans (Fstack.length_setSlot _ _ _)).trans hReturnRoom
  | twoRFrom =>
    refine ⟨?_, hFrames, hReturnRoom, hFrameRoom⟩
    show s.returns.top - 1 - 1 = c.returns - 2
    omega
  | pushLoopFrame =>
    exact ⟨hReturns, congrArg (· + 1) hFrames, hReturnRoom,
      (Fstack.length_setSlot _ _ _).trans hFrameRoom⟩
  | popLoopFrame => exact ⟨hReturns, congrArg (· - 1) hFrames, hReturnRoom, hFrameRoom⟩
  | bumpLoop =>
    exact ⟨hReturns, (Fstack.change_top _ _).trans hFrames, hReturnRoom,
      (Fstack.change_length _ _).trans hFrameRoom⟩
  | leave =>
    exact ⟨hReturns, (Fstack.change_top _ _).trans hFrames, hReturnRoom,
      (Fstack.change_length _ _).trans hFrameRoom⟩
  | rFetch => exact ⟨hReturns, hFrames, hReturnRoom, hFrameRoom⟩
  | i => exact ⟨hReturns, hFrames, hReturnRoom, hFrameRoom⟩
  | j => exact ⟨hReturns, hFrames, hReturnRoom, hFrameRoom⟩

theorem replay_counted {s : Stacks} {c : Open} (h : Counted s c) (es : List Event) :
    Counted (replay es s) (countAll es c) := by
  induction es generalizing s c with
  | nil => exact h
  | cons e es ih => exact ih (apply_counted h e)

/-- A word is allowed exactly where its accesses are inside. -/
theorem inside_iff_allowed {s : Stacks} {c : Open} (h : Counted s c) (w : Word) :
    (∀ a ∈ w.accesses s, a.Inside) ↔ w.Allowed c := by
  obtain ⟨hReturns, hFrames, hReturnRoom, hFrameRoom⟩ := h
  cases w <;>
    simp only [Word.accesses, Word.Allowed, Fstack.access, Access.Inside, List.forall_mem_cons,
      List.not_mem_nil, false_imp_iff, implies_true, and_true, hReturns, hFrames, hReturnRoom,
      hFrameRoom] <;>
    omega

theorem accesses_inside {s : Stacks} {c : Open} (h : Counted s c) (es : List Event) :
    (∀ a ∈ accesses es s, a.Inside) ↔ AllAllowed es c := by
  induction es generalizing s c with
  | nil => exact ⟨fun _ => trivial, fun _ a ha => absurd ha List.not_mem_nil⟩
  | cons e es ih =>
    rw [accesses, AllAllowed, List.forall_mem_append, inside_iff_allowed h, ih (apply_counted h e)]

theorem sound_iff_guarded {s : Stacks} {c : Open} (h : Counted s c) (evs : List Eval) :
    Sound evs s ↔ Guarded evs c := by
  induction evs generalizing s c with
  | nil => exact Iff.rfl
  | cons ev evs ih =>
    have hAfter := replay_counted h ev.events
    rw [Sound, Guarded, accesses_inside h, ih hAfter, hAfter.frames, h.frames]

/-! Nesting, as it can be read off the code. -/

/-- At every point of the code one number of items is open, whatever the way to it, and each word is
allowed there. `calls` are the numbers with which each word is called and left, `final` those at the
end of the word the code is of. -/
inductive Nested (calls : String → Open → Open → Prop) (final : Open) : Code → Open → Open → Prop where
  | nop (c : Open) : Nested calls final .nop c c
  | word {w : Word} {c : Open} : w.Allowed c → Nested calls final (.word w) c (w.count c)
  | other (name : String) (c : Open) : Nested calls final (.other name) c c
  | call {name : String} {c d : Open} : calls name c d → Nested calls final (.call name) c d
  | exit (d : Open) : Nested calls final .exit final d
  | seq {first second : Code} {c m d : Open} : Nested calls final first c m →
      Nested calls final second m d → Nested calls final (.seq first second) c d
  | ifElse {thenBody elseBody : Code} {c d : Open} : Nested calls final thenBody c d →
      Nested calls final elseBody c d → Nested calls final (.ifElse thenBody elseBody) c d
  | begin_ {pred body : Code} {c d : Open} : Nested calls final pred c d →
      Nested calls final body d c → Nested calls final (.begin_ pred body) c d
  | passes {body : Code} {c : Open} : Nested calls final (.seq body (.word .bumpLoop)) c c →
      Nested calls final (.passes body) c c

/-- A counted loop whose body leaves as much open as it finds. -/
theorem Nested.doLoop {calls : String → Open → Open → Prop} {final c : Open} {body : Code}
    (hRoom : 0 ≤ c.loops ∧ c.loops < 32)
    (hBody : Nested calls final body ⟨c.returns, c.loops + 1⟩ ⟨c.returns, c.loops + 1⟩) :
    Nested calls final (.doLoop body) c c := by
  have hEnter : Nested calls final (.word .pushLoopFrame) c ⟨c.returns, c.loops + 1⟩ := .word hRoom
  have hOpen : 0 < c.loops + 1 ∧ c.loops + 1 ≤ 32 := ⟨Int.lt_add_one_of_le hRoom.1, hRoom.2⟩
  have hBump : Nested calls final (.word .bumpLoop) ⟨c.returns, c.loops + 1⟩
      ⟨c.returns, c.loops + 1⟩ := .word hOpen
  have hLeave : Nested calls final (.word .popLoopFrame) ⟨c.returns, c.loops + 1⟩
      ⟨c.returns, c.loops + 1 - 1⟩ := .word trivial
  rw [Int.add_sub_cancel] at hLeave
  exact .seq hEnter (.seq (.passes (.seq hBody hBump)) hLeave)

/-- What a run of nested code has opened and closed, by the way it ends. -/
structure Closes (es : List Event) (e : End) (final c d : Open) : Prop where
  allowed : AllAllowed es c
  done : e = .done → countAll es c = d
  exited : e = .exited → countAll es c = final

namespace Closes
variable {es fs : List Event} {e : End} {final c m d : Open}

theorem append (h : Closes es .done final c m) (h' : Closes fs e final m d) :
    Closes (es ++ fs) e final c d := by
  have hMiddle := h.done rfl
  refine ⟨(allAllowed_append es fs c).2 ⟨h.allowed, ?_⟩, fun he => ?_, fun he => ?_⟩
  · rw [hMiddle]
    exact h'.allowed
  · rw [countAll_append, hMiddle]
    exact h'.done he
  · rw [countAll_append, hMiddle]
    exact h'.exited he

/-- A run that stops early owes nothing to the code behind. -/
theorem stops (h : Closes es e final c m) (he : e ≠ .done) : Closes es e final c d :=
  ⟨h.allowed, fun hDone => absurd hDone he, h.exited⟩

end Closes

/-- Runs of nested code close what they open. -/
theorem nested_closes {defs : String → Code} {calls : String → Open → Open → Prop}
    (hDefs : ∀ name c d, calls name c d → Nested calls d (defs name) c d) {code : Code}
    {es : List Event} {e : End} (h : Trace defs code es e) :
    ∀ {final c d : Open}, Nested calls final code c d → Closes es e final c d := by
  -- on the run; each case reads the nesting of its code back
  induction h with
  | failed code => exact fun _ => ⟨trivial, nofun, nofun⟩
  | nop =>
    intro final c d hCode
    cases hCode
    exact ⟨trivial, fun _ => rfl, nofun⟩
  | word w a b =>
    intro final c d hCode
    cases hCode with
    | word hAllowed => exact ⟨⟨hAllowed, trivial⟩, fun _ => rfl, nofun⟩
  | other name =>
    intro final c d hCode
    cases hCode
    exact ⟨trivial, fun _ => rfl, nofun⟩
  | exit =>
    intro final c d hCode
    cases hCode
    exact ⟨trivial, nofun, fun _ => rfl⟩
  | @call name es e hRun hEnd ih =>
    intro final c d hCode
    cases hCode with
    | call hCall =>
      have hBody := ih (hDefs name c d hCall)
      -- a definition left by EXIT returns to the caller as one that ends
      refine ⟨hBody.allowed, fun _ => ?_, nofun⟩
      cases e with
      | done => exact hBody.done rfl
      | exited => exact hBody.exited rfl
      | failed => exact absurd rfl hEnd
  | callFailed hRun ih =>
    intro final c d hCode
    cases hCode with
    | call hCall => exact ⟨(ih (hDefs _ c d hCall)).allowed, nofun, nofun⟩
  | seq hFirst hSecond ihFirst ihSecond =>
    intro final c d hCode
    cases hCode with
    | seq hC hD => exact (ihFirst hC).append (ihSecond hD)
  | seqStops hFirst hEnd ih =>
    intro final c d hCode
    cases hCode with
    | seq hC hD => exact (ih hC).stops hEnd
  | thenBody hRun ih =>
    intro final c d hCode
    cases hCode with
    | ifElse hThen hElse => exact ih hThen
  | elseBody hRun ih =>
    intro final c d hCode
    cases hCode with
    | ifElse hThen hElse => exact ih hElse
  | beginEnds hRun ih =>
    intro final c d hCode
    cases hCode with
    | begin_ hPred hBody => exact ih hPred
  | beginAgain hPass hRest ihPass ihRest =>
    intro final c d hCode
    cases hCode with
    -- one pass ends where it began, so the loop is nested there again
    | begin_ hPred hBody => exact (ihPass (hPred.seq hBody)).append (ihRest (hPred.begin_ hBody))
  | beginStops hPass hEnd ih =>
    intro final c d hCode
    cases hCode with
    | begin_ hPred hBody => exact (ih (hPred.seq hBody)).stops hEnd
  | passStops hRun hEnd ih =>
    intro final c d hCode
    cases hCode with
    | passes hPass =>
      cases hPass with
      | seq hBody hBump => exact (ih hBody).stops hEnd
  | lastPass hRun ih =>
    intro final c d hCode
    cases hCode with
    | passes hPass => exact ih hPass
  | morePasses hPass hRest ihPass ihRest =>
    intro final c d hCode
    cases hCode with
    | passes hBody => exact (ihPass hBody).append (ihRest hBody.passes)

/-- Each eval is nested where the session stands, and where it fails no loop of its own is open. -/
def Disciplined : List Eval → Open → Prop
  | [], _ => True
  | ev :: evs, c =>
    (∃ calls d, (∀ name c d, calls name c d → Nested calls d (ev.defs name) c d) ∧
      Nested calls d ev.code c d ∧ d.loops = c.loops) ∧
    (ev.ending = .failed → (countAll ev.events c).loops = c.loops) ∧
    Disciplined evs (countAll ev.events c)

theorem disciplined_guarded {evs : List Eval} {c : Open} (h : Disciplined evs c) :
    Guarded evs c := by
  induction evs generalizing c with
  | nil => trivial
  | cons ev evs ih =>
    obtain ⟨⟨calls, d, hDefs, hCode, hLoops⟩, hFailed, hRest⟩ := h
    have hCloses := nested_closes hDefs ev.runs hCode
    refine ⟨?_, hCloses.allowed, ih hRest⟩
    cases hEnding : ev.ending with
    | done =>
      rw [hCloses.done hEnding]
      exact hLoops
    | exited =>
      rw [hCloses.exited hEnding]
      exact hLoops
    | failed => exact hFailed hEnding

/-- `1 0 do 1 0 / loop` fails in its first pass. -/
def failingLoop : Eval where
  defs _ := .nop
  code := .doLoop (.other "/")
  events := [⟨.pushLoopFrame, 1, 0⟩]
  ending := .failed
  runs := by
    have hPass : Trace (fun _ => Code.nop) (.passes (.other "/")) [] .failed :=
      .passStops (.failed _) nofun
    exact .seq (.word .pushLoopFrame 1 0) (.seqStops hPass nofun)

end FactorForth.Runtime
