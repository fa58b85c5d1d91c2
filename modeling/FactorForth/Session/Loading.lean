import FactorForth.Correctness.Included

/-! Files loaded into a session: their text submitted as an input, or `INCLUDED` by the code of an eval,
which compiles it from inside the running image. -/

namespace FactorForth.Session.Loading
open FactorForth.Library FactorForth.Compiler FactorForth.Correctness

/-- How code ends on a data stack: with a stack, or with the message of an error. There is nothing for
code that does not return. -/
abbrev Ending (σ α : Type) : Type := Option (σ × Except String (List α))

/-- The image of the Factor VM, by what the listener asks of it. -/
structure Image (σ α : Type) where
  /-- `parse-string` on an emitted source, and the call of what it gives. -/
  run : Ir → σ → List α → Ending σ α
  /-- `nf-format-error flush`. -/
  formatError : String → σ → σ
  printString : String → σ → σ
  /-- The error of `call( -- )` on a changed depth. -/
  wrongValues : String

variable {σ α : Type}

/-- `with-datastack` under `recover`: an error leaves the stack that the eval started with. -/
def Image.listenerEval (image : Image σ α) (quot : σ → List α → Ending σ α) (s : σ)
    (datastack : List α) : Option (σ × List α) :=
  (quot s datastack).map fun
    | (s, .ok stack) => (s, stack)
    | (s, .error e) => (image.formatError e s, datastack)

/-- `( -- ) (eval)`: the code runs, and then the depth of the stack is compared. -/
def Image.eval (image : Image σ α) (quot : σ → List α → Ending σ α) (s : σ) (stack : List α) :
    Ending σ α :=
  (quot s stack).map fun
    | (s, .ok after) => (s, if after.length = stack.length then .ok after else .error image.wrongValues)
    | (s, .error e) => (s, .error e)

/-- A session between two evals. -/
structure World (σ α : Type) where
  context : CompileContext
  counters : Counters
  state : σ
  datastack : List α

def World.start (counters : Counters) (s : σ) (datastack : List α) : World σ α :=
  ⟨.new, counters, s, datastack⟩

inductive Input where
  | submit (source : String)
  /-- An eval that does nothing but execute `INCLUDED` on the path. -/
  | included (path : String)

inductive Reply where
  | evaluated
  | rejected (message : String)
deriving DecidableEq

/-- The text of a file, or the message of its absence. -/
def readFile (fs : FileSystem) (path : String) : Except String String :=
  match (fs.canonicalize path).bind fun k => fs.files.lookup k with
  | some contents => .ok contents
  | none => .error ("INCLUDED: cannot read " ++ path ++ ": " ++ fs.readError path)

section
variable (host : Host) (fs : FileSystem) (image : Image σ α)

/-- `rt_compile_ans`: the code of the file, or code that prints the error. -/
def rtCompileAns (path : String) (counters : Counters) : (σ → List α → Ending σ α) × Counters :=
  let report := fun (message : String) (s : σ) (stack : List α) =>
    some (image.printString ("INCLUDED: " ++ message ++ "\n") s, .ok stack)
  match readFile fs path with
  | .error e => (report e, counters)
  | .ok contents =>
    let compiled := compileInContextWithDiagnostics host fs contents .new counters
    match compiled.result with
    | .error e => (report ("INCLUDED: compile failed for " ++ path ++ ": " ++ e), compiled.counters)
    | .ok (ir, _) => (image.run ir, compiled.counters)

def World.step (w : World σ α) : Input → Option (World σ α × Reply)
  | .submit source =>
    let compiled := compileInContextWithDiagnostics host fs source w.context w.counters
    match compiled.result with
    | .error e => some (⟨compiled.context, compiled.counters, w.state, w.datastack⟩, .rejected e)
    | .ok (ir, _) =>
      (image.listenerEval (image.run ir) w.state w.datastack).map fun (s, datastack) =>
        (⟨compiled.context, compiled.counters, s, datastack⟩, .evaluated)
  | .included path =>
    let (quot, counters) := rtCompileAns host fs image path w.counters
    (image.listenerEval (image.eval quot) w.state w.datastack).map fun (s, datastack) =>
      (⟨w.context, counters, s, datastack⟩, .evaluated)

/-- The inputs one after the other, with their replies. -/
def World.run (w : World σ α) : List Input → Option (World σ α × List Reply)
  | [] => some (w, [])
  | input :: inputs =>
    (w.step host fs image input).bind fun (next, reply) =>
      (next.run inputs).map fun (last, replies) => (last, reply :: replies)

/-- The file is there, the compiler takes it on its own, it gives the session no name and asks for none,
and its code, where it ends without an error, leaves the data stack as deep as it was. -/
structure Loadable (w : World σ α) (path contents : String) : Prop where
  read : readFile fs path = .ok contents
  apart : ∃ items, compileItems host contents = .ok items ∧
    Correctness.Apart w.context w.counters.synth items
  code : ∃ code, (compileInContextWithDiagnostics host fs contents .new w.counters).result = .ok code ∧
    ∀ s stack, image.run code.1 w.state w.datastack = some (s, .ok stack) →
      stack.length = w.datastack.length

theorem eval_keeps {quot : σ → List α → Ending σ α} {s : σ} {stack : List α}
    (h : ∀ s' after, quot s stack = some (s', .ok after) → after.length = stack.length) :
    image.eval quot s stack = quot s stack := by
  unfold Image.eval
  cases hQuot : quot s stack with
  | none => rfl
  | some ending =>
    obtain ⟨s', stackOrError⟩ := ending
    cases stackOrError with
    | error e => rfl
    | ok after =>
      have hDepth : after.length = stack.length := h s' after hQuot
      simp only [Option.map_some, hDepth, if_true]

/-- Where a file can be loaded either way, both ways are one step. -/
theorem step_loadable {w : World σ α} (hKeyed : Keyed w.context) {path contents : String}
    (h : Loadable host fs image w path contents) :
    w.step host fs image (.included path) = w.step host fs image (.submit contents) := by
  obtain ⟨items, hItems, hApart⟩ := h.apart
  obtain ⟨code, hCode, hDepth⟩ := h.code
  have hHere := compile_apart host fs hKeyed hItems hApart hCode
  have hEval : image.listenerEval (image.eval (image.run code.1)) w.state w.datastack =
      image.listenerEval (image.run code.1) w.state w.datastack := by
    unfold Image.listenerEval
    rw [eval_keeps image hDepth]
  simp only [World.step, rtCompileAns, h.read, hCode, hHere, hEval]

theorem step_keyed {w w' : World σ α} {input : Input} {reply : Reply} (h : Keyed w.context)
    (hStep : w.step host fs image input = some (w', reply)) : Keyed w'.context := by
  cases input with
  | submit source =>
    have hContext := keyed_compile host fs h source w.counters
    simp only [World.step] at hStep
    split at hStep
    · obtain ⟨rfl, -⟩ := Prod.mk.inj (Option.some.inj hStep)
      exact hContext
    · obtain ⟨p, -, hEq⟩ := Option.map_eq_some_iff.mp hStep
      obtain ⟨rfl, -⟩ := Prod.mk.inj hEq
      exact hContext
  | included path =>
    obtain ⟨p, -, hEq⟩ := Option.map_eq_some_iff.mp hStep
    obtain ⟨rfl, -⟩ := Prod.mk.inj hEq
    exact h

/-- A run whose first inputs leave a session in which the file can be loaded either way. -/
theorem run_loadable {w u : World σ α} (hKeyed : Keyed w.context) {before : List Input}
    {replies : List Reply} (hBefore : w.run host fs image before = some (u, replies))
    {path contents : String} (h : Loadable host fs image u path contents) (later : List Input) :
    w.run host fs image (before ++ .included path :: later) =
      w.run host fs image (before ++ .submit contents :: later) := by
  induction before generalizing w replies with
  | nil =>
    obtain ⟨rfl, -⟩ := Prod.mk.inj (Option.some.inj hBefore)
    simp only [List.nil_append, World.run, step_loadable host fs image hKeyed h]
  | cons input before ih =>
    obtain ⟨⟨next, reply⟩, hStep, hRest⟩ := Option.bind_eq_some_iff.mp hBefore
    obtain ⟨⟨last, rest⟩, hRun, hEq⟩ := Option.map_eq_some_iff.mp hRest
    obtain ⟨rfl, -⟩ := Prod.mk.inj hEq
    have hNext := ih (step_keyed host fs image hKeyed hStep) hRun
    simp only [List.cons_append, World.run, hStep, Option.bind_some, hNext]

end

/-! Files with a definition, with code that uses it, with a number that is left, and with code that
asks for nothing. -/

def fourFiles : FileSystem :=
  ⟨[("def.f", ": f 1 ;"), ("use.f", "f drop"), ("one.f", "1"), ("dot.f", "1 .")], some,
    fun _ path => path, fun _ => none, fun _ => ""⟩

/-- An image that counts the sources it runs, each of which leaves `left` items more. -/
def countingImage (left : Nat) : Image Nat Unit :=
  ⟨fun _ n stack => some (n + 1, .ok (List.replicate left () ++ stack)), fun _ n => n, fun _ n => n,
    "wrong values"⟩

def runFrom (left : Nat) (inputs : List Input) : Option (World Nat Unit × List Reply) :=
  (World.start .start 0 []).run noLet fourFiles (countingImage left) inputs

end FactorForth.Session.Loading
