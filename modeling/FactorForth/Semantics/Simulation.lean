import FactorForth.Library.Simulation
import FactorForth.Semantics.Linking

/-! Two programs that differ in some pieces of their code: where the machine cannot tell the pieces apart,
it cannot tell the programs apart. Quotations are values, so that values are compared through their code. -/

namespace FactorForth.Semantics
open FactorForth.Library FactorForth.Compiler
variable {Obj Obj' World World' : Type}

/-- What is compared: the objects of the two machines, the tokens that stand in both programs, and the
pieces of code that stand for each other. -/
structure Pairing (Obj Obj' : Type) where
  obj : Obj → Obj' → Prop
  plain : Tok → Prop
  access : List Tok → List Tok → Prop

namespace Pairing

inductive Code (P : Pairing Obj Obj') : List Tok → List Tok → Prop
  | nil : P.Code [] []
  | plain {t : Tok} {xs ys : List Tok} (h : P.plain t) (hRest : P.Code xs ys) : P.Code (t :: xs) (t :: ys)
  | quot {p q xs ys : List Tok} (h : P.Code p q) (hRest : P.Code xs ys) :
      P.Code (.quot p :: xs) (.quot q :: ys)
  | access {a b xs ys : List Tok} (h : P.access a b) (hRest : P.Code xs ys) : P.Code (a ++ xs) (b ++ ys)

mutual
inductive Val (P : Pairing Obj Obj') : Value Obj → Value Obj' → Prop
  | int (n : Int) : P.Val (.int n) (.int n)
  | bool (b : Bool) : P.Val (.bool b) (.bool b)
  | quot {env : Env Obj} {env' : Env Obj'} {p q : List Tok} (hEnv : P.Scope env env') (h : P.Code p q) :
      P.Val (.quot env p) (.quot env' q)
  | obj {o : Obj} {o' : Obj'} (h : P.obj o o') : P.Val (.obj o) (.obj o')

inductive Scope (P : Pairing Obj Obj') : Env Obj → Env Obj' → Prop
  | nil : P.Scope [] []
  | cons (name : String) {v : Value Obj} {v' : Value Obj'} {env : Env Obj} {env' : Env Obj'}
      (h : P.Val v v') (hRest : P.Scope env env') : P.Scope ((name, v) :: env) ((name, v') :: env')
end

variable {P : Pairing Obj Obj'} {W : World → World' → Prop}

theorem Code.append {a b c d : List Tok} (h : P.Code a b) (hRest : P.Code c d) :
    P.Code (a ++ c) (b ++ d) := by
  induction h with
  | nil => exact hRest
  | plain hPlain _ ih => exact .plain hPlain ih
  | quot hQuot _ ih _ => exact .quot hQuot ‹_›
  | access hAccess _ ih =>
    rw [List.append_assoc, List.append_assoc]
    exact .access hAccess ih

/-- Code whose tokens all stand in both programs. -/
theorem Code.same {code : List Tok} (h : ∀ t ∈ code, P.plain t) : P.Code code code := by
  induction code with
  | nil => exact .nil
  | cons t code ih =>
    exact .plain (h t List.mem_cons_self) (ih fun t ht => h t (List.mem_cons_of_mem _ ht))

theorem Scope.lookup {env : Env Obj} {env' : Env Obj'} (h : P.Scope env env') (name : String)
    {v : Value Obj} (hv : env.lookup name = some v) : ∃ v', env'.lookup name = some v' ∧ P.Val v v' := by
  induction env generalizing env' with
  | nil => cases hv
  | cons p env ih =>
    cases h with
    | cons key hVal hRest =>
      rw [List.lookup_cons] at hv ⊢
      split at hv
      · obtain rfl := Option.some.inj hv
        exact ⟨_, rfl, hVal⟩
      · exact ih hRest hv

/-- Machines that run the two programs. -/
structure Machines (P : Pairing Obj Obj') (W : World → World' → Prop) (m : Machine Obj World)
    (m' : Machine Obj' World') : Prop where
  stack : List.Forall₂ P.Val m.stack m'.stack
  frames : m.frames = m'.frames
  world : W m.world m'.world

structure States (P : Pairing Obj Obj') (W : World → World' → Prop) (s : State Obj World)
    (s' : State Obj' World') : Prop where
  machines : P.Machines W s.toMachine s'.toMachine
  env : P.Scope s.env s'.env

/-- Every step of the one machine has a like step of the other. -/
def Relates (P : Pairing Obj Obj') (W : World → World' → Prop) (r : Machine Obj World → Machine Obj World → Prop)
    (r' : Machine Obj' World' → Machine Obj' World' → Prop) : Prop :=
  ∀ m m', P.Machines W m m' → ∀ n, r m n → ∃ n', r' m' n' ∧ P.Machines W n n'

/-! The same comparison seen from the other program. -/

def flip (P : Pairing Obj Obj') : Pairing Obj' Obj :=
  ⟨fun o' o => P.obj o o', P.plain, fun b a => P.access a b⟩

theorem Code.flip {a b : List Tok} (h : P.Code a b) : P.flip.Code b a := by
  induction h with
  | nil => exact .nil
  | plain hPlain _ ih => exact .plain hPlain ih
  | quot _ _ ih ihRest => exact .quot ih ihRest
  | access hAccess _ ih => exact .access hAccess ih

theorem Val.flip {v : Value Obj} {v' : Value Obj'} (h : P.Val v v') : P.flip.Val v' v := by
  refine h.rec (motive_1 := fun v v' _ => P.flip.Val v' v) (motive_2 := fun env env' _ => P.flip.Scope env' env)
    ?_ ?_ ?_ ?_ ?_ ?_
  · exact fun n => .int n
  · exact fun b => .bool b
  · exact fun _ hCode hEnv => .quot hEnv hCode.flip
  · exact fun hObj => .obj hObj
  · exact .nil
  · exact fun name {_ _ _ _} _ _ hVal hRest => .cons name hVal hRest

theorem Scope.flip {env : Env Obj} {env' : Env Obj'} (h : P.Scope env env') : P.flip.Scope env' env := by
  induction env generalizing env' with
  | nil =>
    cases h
    exact .nil
  | cons p env ih =>
    cases h with
    | cons name hVal hRest => exact .cons name hVal.flip (ih hRest)

theorem Machines.flip {m : Machine Obj World} {m' : Machine Obj' World'} (h : P.Machines W m m') :
    P.flip.Machines (fun w' w => W w w') m' m :=
  ⟨List.Forall₂.flip (h.stack.imp fun _ _ hVal => hVal.flip), h.frames.symm, h.world⟩

theorem States.flip {s : State Obj World} {s' : State Obj' World'} (h : P.States W s s') :
    P.flip.States (fun w' w => W w w') s' s := ⟨h.machines.flip, h.env.flip⟩

/-! The commands of the machine. -/

section Commands
variable {s : State Obj World} {s' : State Obj' World'}

theorem Machines.top {m : Machine Obj World} {m' : Machine Obj' World'} (h : P.Machines W m m')
    {v : Value Obj} {st : List (Value Obj)} (hStack : m.stack = v :: st) :
    ∃ v' st', m'.stack = v' :: st' ∧ P.Val v v' ∧ List.Forall₂ P.Val st st' := by
  have hLike := h.stack
  rw [hStack] at hLike
  obtain ⟨v', st', hTop, hRest, hStack'⟩ := List.forall₂_cons_left_iff.1 hLike
  exact ⟨v', st', hStack', hTop, hRest⟩

theorem States.top (h : P.States W s s') {v : Value Obj} {st : List (Value Obj)} (hStack : s.stack = v :: st) :
    ∃ v' st', s'.stack = v' :: st' ∧ P.Val v v' ∧
      P.States W { s with stack := st } { s' with stack := st' } := by
  obtain ⟨v', st', hStack', hTop, hRest⟩ := h.machines.top hStack
  exact ⟨v', st', hStack', hTop, ⟨hRest, h.machines.frames, h.machines.world⟩, h.env⟩

theorem States.push (h : P.States W s s') {v : Value Obj} {v' : Value Obj'} (hv : P.Val v v') :
    P.States W { s with stack := v :: s.stack } { s' with stack := v' :: s'.stack } :=
  ⟨⟨.cons hv h.machines.stack, h.machines.frames, h.machines.world⟩, h.env⟩

theorem States.scoped (h : P.States W s s') {env : Env Obj} {env' : Env Obj'} (hEnv : P.Scope env env') :
    P.States W { s with env := env } { s' with env := env' } := ⟨h.machines, hEnv⟩

theorem States.framed (h : P.States W s s') (frames : List LoopFrame) :
    P.States W { s with frames := frames } { s' with frames := frames } :=
  ⟨⟨h.machines.stack, rfl, h.machines.world⟩, h.env⟩

theorem pop_simulates : Cmd.Simulates (P.States W) P.Val pop pop := by
  refine .ofOption fun s s' h p hp => ?_
  split at hp
  · rename_i v st hStack
    obtain rfl := Option.some.inj hp
    obtain ⟨v', st', hStack', hVal, hStates⟩ := h.top hStack
    exact ⟨(v', { s' with stack := st' }), by simp only [hStack'], hVal, hStates⟩
  · cases hp

theorem push_simulates {v : Value Obj} {v' : Value Obj'} (hv : P.Val v v') :
    Cmd.Simulates (P.States W) Eq (push v) (push v') := by
  refine .ofOption fun s s' h p hp => ?_
  obtain rfl := Option.some.inj hp
  exact ⟨_, rfl, rfl, h.push hv⟩

theorem popQuot_simulates :
    Cmd.Simulates (P.States W) (fun q q' => P.Scope q.1 q'.1 ∧ P.Code q.2 q'.2) popQuot popQuot := by
  refine .ofOption fun s s' h p hp => ?_
  split at hp
  · rename_i env code st hStack
    obtain rfl := Option.some.inj hp
    obtain ⟨v', st', hStack', hVal, hStates⟩ := h.top hStack
    cases hVal with
    | quot hEnv hCode =>
      exact ⟨((_, _), { s' with stack := st' }), by simp only [hStack'], ⟨hEnv, hCode⟩, hStates⟩
  · cases hp

theorem popInt_simulates : Cmd.Simulates (P.States W) Eq popInt popInt := by
  refine .ofOption fun s s' h p hp => ?_
  split at hp
  · rename_i n st hStack
    obtain rfl := Option.some.inj hp
    obtain ⟨v', st', hStack', hVal, hStates⟩ := h.top hStack
    cases hVal with
    | int n => exact ⟨(n, { s' with stack := st' }), by simp only [hStack'], rfl, hStates⟩
  · cases hp

theorem getEnv_simulates : Cmd.Simulates (P.States W) P.Scope getEnv getEnv := by
  refine .ofOption fun s s' h p hp => ?_
  obtain rfl := Option.some.inj hp
  exact ⟨_, rfl, h.env, h⟩

theorem setEnv_simulates {env : Env Obj} {env' : Env Obj'} (hEnv : P.Scope env env') :
    Cmd.Simulates (P.States W) Eq (setEnv env) (setEnv env') := by
  refine .ofOption fun s s' h p hp => ?_
  obtain rfl := Option.some.inj hp
  exact ⟨_, rfl, rfl, h.scoped hEnv⟩

theorem onMachine_simulates {r : Machine Obj World → Machine Obj World → Prop}
    {r' : Machine Obj' World' → Machine Obj' World' → Prop} (h : P.Relates W r r') :
    Cmd.Simulates (P.States W) Eq (onMachine r) (onMachine r') := by
  refine .ofRel ?_
  rintro s s' hs u ⟨hStep, hEnv⟩
  obtain ⟨n', hStep', hMachines⟩ := h _ _ hs.machines _ hStep
  refine ⟨{ n' with env := s'.env }, ⟨hStep', rfl⟩, hMachines, ?_⟩
  rw [hEnv]
  exact hs.env

theorem pushLoopFrame_simulates (limit start : Int) :
    Cmd.Simulates (P.States W) Eq (pushLoopFrame limit start) (pushLoopFrame limit start) := by
  refine .ofOption fun s s' h p hp => ?_
  obtain rfl := Option.some.inj hp
  refine ⟨_, rfl, rfl, ?_⟩
  rw [← h.machines.frames]
  exact h.framed _

theorem bumpLoop_simulates (delta : Int) :
    Cmd.Simulates (P.States W) Eq (bumpLoop delta) (bumpLoop delta) := by
  refine .ofOption fun s s' h p hp => ?_
  rw [← h.machines.frames]
  split at hp
  · dsimp only
    split at hp
    · rename_i hLeft
      obtain rfl := Option.some.inj hp
      exact ⟨_, if_pos hLeft, rfl, h⟩
    · rename_i hLeft
      obtain rfl := Option.some.inj hp
      exact ⟨_, if_neg hLeft, rfl, h.framed _⟩
  · cases hp

theorem popLoopFrame_simulates : Cmd.Simulates (P.States W) Eq popLoopFrame popLoopFrame := by
  refine .ofOption fun s s' h p hp => ?_
  rw [← h.machines.frames]
  split at hp
  · rename_i frame frames _
    obtain rfl := Option.some.inj hp
    exact ⟨(⟨⟩, { s' with frames := frames }), rfl, rfl, h.framed frames⟩
  · cases hp

theorem lookupLocal_simulates (name : String) :
    Cmd.Simulates (P.States W) Eq (lookupLocal name) (lookupLocal name) := by
  refine .ofOption fun s s' h p hp => ?_
  obtain ⟨v, hv, rfl⟩ := Option.map_eq_some_iff.1 hp
  obtain ⟨v', hv', hVal⟩ := h.env.lookup name hv
  exact ⟨(⟨⟩, { s' with stack := v' :: s'.stack }), by simp only [hv', Option.map_some], rfl, h.push hVal⟩

theorem bindLocal_simulates (name : Option String) :
    Cmd.Simulates (P.States W) Eq (bindLocal name) (bindLocal name) := by
  refine .ofOption fun s s' h p hp => ?_
  split at hp
  · rename_i v st hStack
    obtain rfl := Option.some.inj hp
    obtain ⟨v', st', hStack', hVal, hStates⟩ := h.top hStack
    refine ⟨(⟨⟩, { s' with stack := st', env := name.elim s'.env fun n => (n, v') :: s'.env }),
      by simp only [hStack'], rfl, hStates.scoped ?_⟩
    cases name with
    | none => exact h.env
    | some n => exact .cons n hVal h.env
  · cases hp

end Commands

/-! The code. -/

/-- Two machines that the difference is hidden from: what they supply does the like to machines that differ
in it. -/
structure Hidden (P : Pairing Obj Obj') (W : World → World' → Prop) (V : Vm Obj World)
    (V' : Vm Obj' World') : Prop where
  quot : ∀ q, ¬ P.plain (.quot q)
  prim : ∀ p, P.plain (.prim p)
  word : ∀ t, P.plain (.word t) → P.Relates W (V.word t) (V'.word t)
  name : ∀ s, P.plain (.name s) → P.Relates W (V.name s) (V'.name s)
  letForm : ∀ form, P.plain (.letForm form) → P.Relates W (V.letForm form) (V'.letForm form)
  symbol : ∀ s, P.plain (.symbol s) → P.obj (V.symbol s) (V'.symbol s)
  str : ∀ s, P.obj (V.str s) (V'.str s)
  float : ∀ x, P.obj (V.float x) (V'.float x)
  zero : ∀ v v', P.Val v v' → V.zero v = V'.zero v'
  equal : ∀ a a' b b', P.Val a a' → P.Val b b' → V.equal a b = V'.equal a' b'

variable {V : Vm Obj World} {V' : Vm Obj' World'} {call : Caller Obj World} {call' : Caller Obj' World'}

theorem reference_simulates (h : P.Hidden W V V') {t : Target} (ht : P.plain (.word t)) :
    Cmd.Simulates (P.States W) Eq (V.reference t) (V'.reference t) := by
  cases t with
  | local_ n => exact lookupLocal_simulates n
  | _ =>
    unfold Vm.reference
    refine .ite .exit ?_
    exact onMachine_simulates (h.word _ ht)

theorem truthy_like {v : Value Obj} {v' : Value Obj'} (h : P.Val v v') : v.truthy = v'.truthy := by
  cases h <;> rfl

section Calls
variable (hCall : ∀ code code', P.Code code code' → Cmd.Simulates (P.States W) Eq (call code) (call' code'))
include hCall

theorem callQuot_simulates {q : Env Obj × List Tok} {q' : Env Obj' × List Tok}
    (h : P.Scope q.1 q'.1 ∧ P.Code q.2 q'.2) :
    Cmd.Simulates (P.States W) Eq (callQuot call q) (callQuot call' q') := by
  unfold callQuot
  refine .bind getEnv_simulates fun env env' hEnv => ?_
  refine .bind (setEnv_simulates h.1) fun _ _ _ => ?_
  exact .bind (hCall _ _ h.2) fun _ _ _ => setEnv_simulates hEnv

theorem stepPrim_simulates (h : P.Hidden W V V') (p : Prim) :
    Cmd.Simulates (P.States W) Eq (stepPrim V call p) (stepPrim V' call' p) := by
  have hPrim (p : Prim) : P.plain (.prim p) := h.prim p
  have hLoop {code code' : List Tok} (hCode : P.Code code code') : P.Code (loopCode code) (loopCode code') :=
    .quot hCode (.plain (hPrim _) (.quot (.quot hCode (.plain (hPrim _) .nil)) (.plain (hPrim _) .nil)))
  have hDoLoop {code code' : List Tok} (hCode : P.Code code code') :
      P.Code (doLoopCode code) (doLoopCode code') :=
    .plain (hPrim _) (.quot (.quot hCode (.same fun t ht => by
      simp only [List.mem_cons, List.not_mem_nil, or_false] at ht
      obtain rfl | rfl | rfl := ht <;> exact hPrim _)) (.plain (hPrim _) (.plain (hPrim _) .nil)))
  cases p with
  | zeroP =>
    refine .bind pop_simulates fun v v' hv => ?_
    rw [h.zero v v' hv]
    exact push_simulates (.bool _)
  | not =>
    refine .bind pop_simulates fun v v' hv => ?_
    rw [truthy_like hv]
    exact push_simulates (.bool _)
  | eq =>
    refine .bind pop_simulates fun b b' hb => .bind pop_simulates fun a a' ha => ?_
    rw [h.equal a a' b b' ha hb]
    exact push_simulates (.bool _)
  | dup =>
    exact .bind pop_simulates fun v v' hv => .bind (push_simulates hv) fun _ _ _ => push_simulates hv
  | drop => exact .bind pop_simulates fun _ _ _ => .pure rfl
  | kernelDrop => exact .bind pop_simulates fun _ _ _ => .pure rfl
  | f => exact push_simulates (.bool false)
  | t => exact push_simulates (.bool true)
  | call => exact .bind popQuot_simulates fun q q' hq => callQuot_simulates hCall hq
  | ifQ =>
    refine .bind popQuot_simulates fun e e' he => .bind popQuot_simulates fun q q' hq => ?_
    refine .bind pop_simulates fun v v' hv => ?_
    rw [truthy_like hv]
    exact .ite (callQuot_simulates hCall hq) (callQuot_simulates hCall he)
  | unlessQ =>
    refine .bind popQuot_simulates fun q q' hq => .bind pop_simulates fun v v' hv => ?_
    rw [truthy_like hv]
    exact .ite (.pure rfl) (callQuot_simulates hCall hq)
  | whenQ =>
    refine .bind popQuot_simulates fun q q' hq => .bind pop_simulates fun v v' hv => ?_
    rw [truthy_like hv]
    exact .ite (callQuot_simulates hCall hq) (.pure rfl)
  | loop =>
    exact .bind popQuot_simulates fun q q' hq => callQuot_simulates hCall ⟨hq.1, hLoop hq.2⟩
  | doLoop =>
    exact .bind popQuot_simulates fun q q' hq => callQuot_simulates hCall ⟨hq.1, hDoLoop hq.2⟩
  | qdoLoop =>
    refine .bind popQuot_simulates fun q q' hq => .bind pop_simulates fun start start' hStart => ?_
    refine .bind pop_simulates fun limit limit' hLimit => ?_
    rw [h.equal limit limit' start start' hLimit hStart]
    refine .ite (.pure rfl) (.bind (push_simulates hLimit) fun _ _ _ => ?_)
    exact .bind (push_simulates hStart) fun _ _ _ => callQuot_simulates hCall ⟨hq.1, hDoLoop hq.2⟩
  | pushLoopFrame =>
    refine .bind popInt_simulates fun start _ hStart => .bind popInt_simulates fun limit _ hLimit => ?_
    obtain rfl := hStart
    obtain rfl := hLimit
    exact pushLoopFrame_simulates limit start
  | bumpLoop =>
    refine .bind popInt_simulates fun delta _ hDelta => ?_
    obtain rfl := hDelta
    refine .bind (bumpLoop_simulates delta) fun done _ hDone => ?_
    obtain rfl := hDone
    exact push_simulates (.bool done)
  | popLoopFrame => exact popLoopFrame_simulates
  | withReturn =>
    refine .bind popQuot_simulates fun q q' hq => .bind .get fun s s' hs => ?_
    refine .catchRet (callQuot_simulates hCall hq) fun u u' hu => ?_
    exact ⟨⟨hs.machines.stack, hu.machines.frames, hu.machines.world⟩, hs.env⟩

theorem stepTok_simulates (h : P.Hidden W V V') {t : Tok} (ht : P.plain t) :
    Cmd.Simulates (P.States W) Eq (stepTok V call t) (stepTok V' call' t) := by
  cases t with
  | int n => exact push_simulates (.int n)
  | float x => exact push_simulates (.obj (h.float x))
  | str s => exact push_simulates (.obj (h.str s))
  | report s => exact push_simulates (.obj (h.str s))
  | word t => exact reference_simulates h ht
  | symbol s => exact push_simulates (.obj (h.symbol s ht))
  | name s => exact onMachine_simulates (h.name s ht)
  | prim p => exact stepPrim_simulates hCall h p
  | bind name => exact bindLocal_simulates name
  | letForm form => exact onMachine_simulates (h.letForm form ht)
  | quot q => exact absurd ht (h.quot q)

end Calls

theorem runSeq_append (V : Vm Obj World) (call : Caller Obj World) (xs ys : List Tok) :
    runSeq V call (xs ++ ys) = (do runSeq V call xs; runSeq V call ys) := by
  induction xs with
  | nil => rw [List.nil_append, runSeq, Cmd.pure_bind]
  | cons x xs ih => rw [List.cons_append, runSeq, ih, runSeq, Cmd.bind_assoc]

/-- Pieces that stand for each other do the like, whatever quotations do. -/
def Exchanges (P : Pairing Obj Obj') (W : World → World' → Prop) (V : Vm Obj World)
    (V' : Vm Obj' World') : Prop :=
  ∀ a b, P.access a b → ∀ call call',
    Cmd.Simulates (P.States W) Eq (runSeq V call a) (runSeq V' call' b)

theorem runSeq_simulates
    (hCall : ∀ code code', P.Code code code' → Cmd.Simulates (P.States W) Eq (call code) (call' code'))
    (h : P.Hidden W V V') (hAccess : P.Exchanges W V V') {code code' : List Tok} (hCode : P.Code code code') :
    Cmd.Simulates (P.States W) Eq (runSeq V call code) (runSeq V' call' code') := by
  induction hCode with
  | nil => exact .pure rfl
  | plain hPlain _ ih =>
    rw [runSeq, runSeq]
    exact .bind (stepTok_simulates hCall h hPlain) fun _ _ _ => ih
  | quot hQuot _ _ ih =>
    rw [runSeq, runSeq]
    have hPush : Cmd.Simulates (P.States W) Eq (stepTok V call (.quot _)) (stepTok V' call' (.quot _)) :=
      .bind getEnv_simulates fun env env' hEnv => push_simulates (.quot hEnv hQuot)
    exact .bind hPush fun _ _ _ => ih
  | access hPiece _ ih =>
    rw [runSeq_append, runSeq_append]
    exact .bind (hAccess _ _ hPiece call call') fun _ _ _ => ih

theorem run_simulates (h : P.Hidden W V V') (hAccess : P.Exchanges W V V') {code code' : List Tok}
    (hCode : P.Code code code') : Cmd.Simulates (P.States W) Eq (run V code) (run V' code') := by
  refine .lim fun k => ?_
  induction k generalizing code code' with
  | zero => exact fun _ _ _ _ hOut => hOut.elim
  | succ k ih => exact runSeq_simulates (fun _ _ hQuot => ih hQuot) h hAccess hCode

/-! The words of the two programs. -/

/-- Forms that define a word alike. -/
inductive Lines (P : Pairing Obj Obj') : Line → Line → Prop
  | colon (name : String) (effect : EffectText) (inline : Bool) {p q : List Tok} (h : P.Code p q) :
      P.Lines (.colon name effect p inline) (.colon name effect q inline)
  | localsColon (name : String) (inputs : List (Option String)) (outputs : List String) {p q : List Tok}
      (h : P.Code (p.map (readInput inputs)) (q.map (readInput inputs))) :
      P.Lines (.localsColon name inputs outputs p) (.localsColon name inputs outputs q)

def isColon : Line → Bool
  | .colon _ _ _ _ | .localsColon _ _ _ _ => true
  | _ => false

/-- A word that both programs may call is defined alike in both, or is no colon word of either. -/
def Defs (P : Pairing Obj Obj') (defs defs' : String → Option Line) : Prop :=
  ∀ n, P.plain (.word (.userDefined n)) →
    (∃ l l', defs n = some l ∧ defs' n = some l' ∧ P.Lines l l') ∨
      (∀ l, defs n = some l → isColon l = false) ∧ ∀ l, defs' n = some l → isColon l = false

theorem Lines.flip {l l' : Line} (h : P.Lines l l') : P.flip.Lines l' l := by
  cases h with
  | colon name effect inline hCode => exact .colon name effect inline hCode.flip
  | localsColon name inputs outputs hCode => exact .localsColon name inputs outputs hCode.flip

theorem Defs.flip {defs defs' : String → Option Line} (h : P.Defs defs defs') : P.flip.Defs defs' defs := by
  intro n hn
  obtain ⟨l, l', hl, hl', hLines⟩ | ⟨hl, hl'⟩ := h n hn
  · exact Or.inl ⟨l', l, hl', hl, hLines.flip⟩
  · exact Or.inr ⟨hl', hl⟩

theorem bindInputs_simulates (inputs : List (Option String)) :
    Cmd.Simulates (P.States W) Eq (bindInputs inputs) (bindInputs inputs) := by
  induction inputs with
  | nil => exact .pure rfl
  | cons name names ih => exact .bind ih fun _ _ _ => bindLocal_simulates name

theorem called_relates {c : Command Obj World PUnit} {c' : Command Obj' World' PUnit}
    (h : Cmd.Simulates (P.States W) Eq c c') : P.Relates W (called c) (called c') := by
  rintro m m' hMachines n ⟨env, hOk⟩
  obtain ⟨out', hOut, hLike⟩ := h ⟨m, []⟩ ⟨m', []⟩ ⟨hMachines, .nil⟩ _ hOk
  cases hLike with
  | ok _ hStates => exact ⟨_, ⟨_, hOut⟩, hStates.machines⟩

theorem lineCode_other (V : Vm Obj World) {l : Line} (h : isColon l = false) : lineCode V l = none := by
  cases l with
  | colon | localsColon => cases h
  | _ => rfl

theorem lineCode_simulates (h : P.Hidden W V V') (hAccess : P.Exchanges W V V') {l l' : Line}
    (hLines : P.Lines l l') : ∃ c c', lineCode V l = some c ∧ lineCode V' l' = some c' ∧
      Cmd.Simulates (P.States W) Eq c c' := by
  cases hLines with
  | colon _ _ _ hCode => exact ⟨_, _, rfl, rfl, run_simulates h hAccess hCode⟩
  | localsColon _ inputs _ hCode =>
    exact ⟨_, _, rfl, rfl, .bind (bindInputs_simulates inputs) fun _ _ _ => run_simulates h hAccess hCode⟩

section Link
variable {defs defs' : String → Option Line}

theorem link_plain (h : P.Hidden W V V') (j k : Nat)
    (hWord : ∀ n, P.plain (.word (.userDefined n)) →
      P.Relates W ((V.link defs k).word (.userDefined n)) ((V'.link defs' (k + j)).word (.userDefined n))) :
    P.Hidden W (V.link defs k) (V'.link defs' (k + j)) := by
  have hLinked {Obj World : Type} (V : Vm Obj World) (defs : String → Option Line) (k : Nat) :
      ∃ words, V.link defs k = V.withWords words := by
    cases k with
    | zero => exact ⟨_, rfl⟩
    | succ k => exact ⟨_, rfl⟩
  obtain ⟨words, hWords⟩ := hLinked V defs k
  obtain ⟨words', hWords'⟩ := hLinked V' defs' (k + j)
  rw [hWords, hWords'] at hWord ⊢
  refine ⟨h.quot, h.prim, fun t ht => ?_, h.name, h.letForm, h.symbol, h.str, h.float, h.zero, h.equal⟩
  cases t with
  | userDefined n => exact hWord n ht
  | _ => exact h.word _ ht

theorem link_other {defs : String → Option Line} {n : String}
    (h : ∀ l, defs n = some l → isColon l = false) (k : Nat) :
    (V.link defs k).word (.userDefined n) = V.word (.userDefined n) := by
  have hNone (V : Vm Obj World) : (defs n).bind (lineCode V) = none := by
    cases hDef : defs n with
    | none => rfl
    | some l => exact lineCode_other V (h l hDef)
  cases k with
  | zero =>
    show (((defs n).bind (lineCode V)).map fun _ => tooDeep).getD _ = _
    rw [hNone]
    rfl
  | succ k =>
    show (((defs n).bind (lineCode (V.link defs k))).map called).getD _ = _
    rw [hNone]
    rfl

/-- The words of the programs, as far as calls nest: those of the second program may nest some deeper. -/
theorem link_hidden (h : P.Hidden W V V') (hDefs : P.Defs defs defs') (j : Nat)
    (hAccess : ∀ k, P.Exchanges W (V.link defs k) (V'.link defs' (k + j))) (k : Nat) :
    P.Hidden W (V.link defs k) (V'.link defs' (k + j)) := by
  have hOther (k : Nat) {n : String} (hn : P.plain (.word (.userDefined n)))
      (hl : ∀ l, defs n = some l → isColon l = false) (hl' : ∀ l, defs' n = some l → isColon l = false) :
      P.Relates W ((V.link defs k).word (.userDefined n)) ((V'.link defs' (k + j)).word (.userDefined n)) := by
    rw [link_other hl, link_other hl']
    exact h.word _ hn
  induction k with
  | zero =>
    refine link_plain h j 0 fun n hn => ?_
    obtain ⟨l, l', hl, hl', hLines⟩ | ⟨hl, hl'⟩ := hDefs n hn
    · have hSome : (lineCode V l).isSome = true := by cases hLines <;> rfl
      rw [link_word_zero hl hSome]
      exact fun _ _ _ _ hStep => hStep.elim
    · exact hOther 0 hn hl hl'
  | succ k ih =>
    refine link_plain h j (k + 1) fun n hn => ?_
    obtain ⟨l, l', hl, hl', hLines⟩ | ⟨hl, hl'⟩ := hDefs n hn
    · obtain ⟨c, c', hc, hc', hLike⟩ := lineCode_simulates ih (hAccess k) hLines
      rw [link_word_succ hl hc, Nat.succ_add, link_word_succ hl' hc']
      exact called_relates hLike
    · exact hOther (k + 1) hn hl hl'

end Link

end Pairing
end FactorForth.Semantics
