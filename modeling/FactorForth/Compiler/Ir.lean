import FactorForth.Compiler.Dictionary

/-! The emitted Factor source, kept as nested tokens and definition forms rather than as text. -/

namespace FactorForth.Compiler

/-- Control and stack words that the compiler itself writes, and the words that Factor and
`forth.runtime` define them from. -/
inductive Prim where
  | zeroP
  | not
  | eq
  | dup
  | drop
  | kernelDrop
  | f
  | t
  | call
  | ifQ
  | unlessQ
  | whenQ
  | loop
  | doLoop
  | qdoLoop
  | pushLoopFrame
  | bumpLoop
  | popLoopFrame
  | withReturn
deriving DecidableEq, Repr

def Prim.text : Prim → String
  | .zeroP => "math:zero?"
  | .not => "not"
  | .eq => "="
  | .dup => "dup"
  | .drop => "drop"
  | .kernelDrop => "kernel:drop"
  | .f => "f"
  | .t => "t"
  | .call => "call"
  | .ifQ => "kernel:if"
  | .unlessQ => "kernel:unless"
  | .whenQ => "when"
  | .loop => "kernel:loop"
  | .doLoop => "forth.runtime:do-loop"
  | .qdoLoop => "forth.runtime:?do-loop"
  | .pushLoopFrame => "push-loop-frame"
  | .bumpLoop => "bump-loop"
  | .popLoopFrame => "pop-loop-frame"
  | .withReturn => "continuations:with-return"

inductive Tok where
  | int (n : Int)
  | float (x : FloatLit)
  /-- A string literal, by its contents. -/
  | str (s : String)
  /-- The text of a `SEE` report, a literal with escapes of its own. -/
  | report (s : String)
  | word (t : Target)
  /-- A storage symbol. -/
  | symbol (s : String)
  /-- Text copied as it stands. -/
  | name (s : String)
  | prim (p : Prim)
  /-- `:> name`; a discard gets a fresh name when the text is written. -/
  | bind (name : Option String)
  | letForm (form : LetLang.LetForm)
  | quot (q : List Tok)

def runtimeWord (s : String) : Tok := .word (.qualifiedBuiltin "forth.runtime" s)

def getGlobal : Tok := .word (.builtin "namespaces" "get-global")

def setGlobal : Tok := .word (.builtin "namespaces" "set-global")

def plusTok : Tok := .word (.builtin "math" "+")

/-- A written stack effect. -/
structure EffectText where
  inputs : List String
  outputs : List String
deriving DecidableEq, Repr

/-- One form of the emitted source. -/
inductive Line where
  | using_ (vocabs : List String)
  | inScratchpad
  | symbol (s : String)
  | exec (code : List Tok)
  | constant (name : String) (value : Tok)
  | colon (name : String) (effect : EffectText) (body : List Tok) (inline : Bool)
  /-- `:: name ( inputs -- outputs ) body ;`, a discarded input having no name yet. -/
  | localsColon (name : String) (inputs : List (Option String)) (outputs : List String)
      (body : List Tok)
  | tuple (name : String) (parent : Option String) (slots : List String)
  | generic (name : String) (effect : EffectText)
  | method (generic : String) (specializers : List String) (body : List Tok)
  | raw (source : String)
  | flush

abbrev Ir : Type := List Line

end FactorForth.Compiler
