import FactorForth.Library.Dict
import FactorForth.Compiler.Ast

/-! What a word reference may be bound to, the spelling of user names in the emitted source, and
the table of the ANS words the compiler knows. -/

namespace FactorForth.Compiler
open FactorForth.Library

/-- Which Factor name stands for an ANS word. -/
inductive Target where
  | builtin (vocab factorName : String)
  | qualifiedBuiltin (vocab factorName : String)
  | userDefined (factorName : String)
  | local_ (name : String)
deriving DecidableEq, Repr

def Target.toFactorToken : Target → String
  | .builtin _ factorName => factorName
  | .qualifiedBuiltin vocab factorName => vocab ++ ":" ++ factorName
  | .userDefined factorName => factorName
  | .local_ name => name

def Target.vocab : Target → Option String
  | .builtin vocab _ => some vocab
  | .qualifiedBuiltin vocab _ => some vocab
  | .userDefined _ => none
  | .local_ _ => none

/-- The target of ANS `EXIT`. -/
def Target.exit : Target := .qualifiedBuiltin "continuations" "return"

def userNamePrefix : String := "z-"

/-- The one place where a user's name becomes a Factor name. -/
def factorUserName (ansLc : String) : String :=
  userNamePrefix ++ match ansLc with
    | "->" => "arrow"
    | "\x7dt" => "end-test"
    | "t\x7b" => "begin-test"
    | other => other

def builtinTable : Dict String Target := [
  ("dup", .builtin "kernel" "dup"), ("drop", .builtin "kernel" "drop"),
  ("swap", .builtin "kernel" "swap"), ("over", .builtin "kernel" "over"),
  ("rot", .builtin "kernel" "rot"), ("nip", .builtin "kernel" "nip"),
  ("tuck", .builtin "kernel" "tuck"), ("depth", .qualifiedBuiltin "forth.runtime" "depth"),
  (">r", .qualifiedBuiltin "forth.runtime" ">r"), ("r>", .qualifiedBuiltin "forth.runtime" "r>"),
  ("r@", .qualifiedBuiltin "forth.runtime" "r@"),
  ("rdrop", .qualifiedBuiltin "forth.runtime" "rdrop"),
  ("2>r", .qualifiedBuiltin "forth.runtime" "2>r"),
  ("2r>", .qualifiedBuiltin "forth.runtime" "2r>"), ("+", .builtin "math" "+"),
  ("-", .builtin "math" "-"), ("*", .builtin "math" "*"), ("/", .builtin "math" "/i"),
  ("mod", .qualifiedBuiltin "forth.runtime" "floored-mod"), ("negate", .builtin "math" "neg"),
  ("abs", .builtin "math" "abs"), ("min", .builtin "math.order" "min"),
  ("max", .builtin "math.order" "max"), ("=", .qualifiedBuiltin "forth.runtime" "ans="),
  ("<>", .qualifiedBuiltin "forth.runtime" "ans<>"),
  ("<", .qualifiedBuiltin "forth.runtime" "ans<"),
  (">", .qualifiedBuiltin "forth.runtime" "ans>"),
  ("<=", .qualifiedBuiltin "forth.runtime" "ans<="),
  (">=", .qualifiedBuiltin "forth.runtime" "ans>="),
  ("0=", .qualifiedBuiltin "forth.runtime" "ans0="),
  ("0<", .qualifiedBuiltin "forth.runtime" "ans0<"),
  ("0>", .qualifiedBuiltin "forth.runtime" "ans0>"), ("and", .builtin "math.bitwise" "bitand"),
  ("or", .builtin "math.bitwise" "bitor"), ("xor", .builtin "math.bitwise" "bitxor"),
  ("invert", .builtin "math.bitwise" "bitnot"), ("i", .qualifiedBuiltin "forth.runtime" "i"),
  ("j", .qualifiedBuiltin "forth.runtime" "j"),
  ("leave", .qualifiedBuiltin "forth.runtime" "leave"),
  ("unloop", .qualifiedBuiltin "forth.runtime" "pop-loop-frame"),
  (".", .qualifiedBuiltin "forth.runtime" "."), ("u.", .qualifiedBuiltin "forth.runtime" "u."),
  ("cr", .qualifiedBuiltin "forth.runtime" "cr"),
  ("emit", .qualifiedBuiltin "forth.runtime" "emit"),
  ("space", .qualifiedBuiltin "forth.runtime" "space"),
  ("spaces", .qualifiedBuiltin "forth.runtime" "spaces"),
  ("type", .qualifiedBuiltin "forth.runtime" "type"),
  ("cmove", .qualifiedBuiltin "forth.runtime" "cmove"),
  ("fill", .qualifiedBuiltin "forth.runtime" "fill"),
  ("bl", .qualifiedBuiltin "forth.runtime" "bl"),
  ("key", .qualifiedBuiltin "forth.runtime" "key"),
  ("accept", .qualifiedBuiltin "forth.runtime" "accept"),
  ("<#", .qualifiedBuiltin "forth.runtime" "<#"), ("#", .qualifiedBuiltin "forth.runtime" "#"),
  ("#s", .qualifiedBuiltin "forth.runtime" "#S"),
  ("sign", .qualifiedBuiltin "forth.runtime" "sign"),
  ("hold", .qualifiedBuiltin "forth.runtime" "hold"),
  ("#>", .qualifiedBuiltin "forth.runtime" "#>"),
  ("n>$", .qualifiedBuiltin "forth.runtime" "n>$"),
  ("hex", .qualifiedBuiltin "forth.runtime" "hex"),
  ("decimal", .qualifiedBuiltin "forth.runtime" "decimal"),
  ("binary", .qualifiedBuiltin "forth.runtime" "binary"),
  ("octal", .qualifiedBuiltin "forth.runtime" "octal"),
  ("@", .qualifiedBuiltin "forth.runtime" "@"), ("!", .qualifiedBuiltin "forth.runtime" "nf-!"),
  ("c@", .qualifiedBuiltin "forth.runtime" "c@"),
  ("c!", .qualifiedBuiltin "forth.runtime" "nf-c!"),
  ("+!", .qualifiedBuiltin "forth.runtime" "nf-+!"),
  ("cell+", .qualifiedBuiltin "forth.runtime" "cell+"),
  ("char+", .qualifiedBuiltin "forth.runtime" "char+"),
  ("cells", .qualifiedBuiltin "forth.runtime" "cells"),
  ("chars", .qualifiedBuiltin "forth.runtime" "chars"),
  ("floats", .qualifiedBuiltin "forth.runtime" "floats"),
  ("allot", .qualifiedBuiltin "forth.runtime" "allot"),
  ("here", .qualifiedBuiltin "forth.runtime" "here"),
  ("f@", .qualifiedBuiltin "forth.runtime" "f@"),
  ("f!", .qualifiedBuiltin "forth.runtime" "nf-f!"),
  ("s>d", .qualifiedBuiltin "forth.runtime" "s>d"),
  ("d>s", .qualifiedBuiltin "forth.runtime" "d>s"),
  ("d>f", .qualifiedBuiltin "forth.runtime" "d>f"),
  ("f>d", .qualifiedBuiltin "forth.runtime" "f>d"),
  ("f+", .qualifiedBuiltin "forth.runtime" "f+"), ("f-", .qualifiedBuiltin "forth.runtime" "f-"),
  ("f*", .qualifiedBuiltin "forth.runtime" "f*"), ("f/", .qualifiedBuiltin "forth.runtime" "f/"),
  ("f<", .qualifiedBuiltin "forth.runtime" "ansf<"),
  ("f>", .qualifiedBuiltin "forth.runtime" "ansf>"),
  ("f=", .qualifiedBuiltin "forth.runtime" "ansf="),
  ("execute", .qualifiedBuiltin "forth.runtime" "ans-execute"),
  ("1+", .qualifiedBuiltin "forth.runtime" "1+"), ("1-", .qualifiedBuiltin "forth.runtime" "1-"),
  ("2*", .qualifiedBuiltin "forth.runtime" "ans2*"), ("2/", .qualifiedBuiltin "math" "2/"),
  ("/mod", .qualifiedBuiltin "forth.runtime" "ans/mod"),
  ("*/", .qualifiedBuiltin "forth.runtime" "ans*/"),
  ("*/mod", .qualifiedBuiltin "forth.runtime" "ans*/mod"),
  ("lshift", .qualifiedBuiltin "forth.runtime" "ans-lshift"),
  ("rshift", .qualifiedBuiltin "forth.runtime" "ans-rshift"), ("2dup", .builtin "kernel" "2dup"),
  ("2drop", .builtin "kernel" "2drop"), ("2swap", .qualifiedBuiltin "forth.runtime" "ans2swap"),
  ("2over", .qualifiedBuiltin "forth.runtime" "ans2over"), ("-rot", .builtin "kernel" "-rot"),
  ("2@", .qualifiedBuiltin "forth.runtime" "ans2@"),
  ("2!", .qualifiedBuiltin "forth.runtime" "ans2!"),
  ("erase", .qualifiedBuiltin "forth.runtime" "ans-erase"),
  ("0<>", .qualifiedBuiltin "forth.runtime" "ans0<>"),
  ("included", .qualifiedBuiltin "forth.runtime" "nf-included"),
  ("$len", .qualifiedBuiltin "forth.runtime" "$len"),
  ("$clen", .qualifiedBuiltin "forth.runtime" "$clen"),
  ("$+", .qualifiedBuiltin "forth.runtime" "$+"),
  ("$upper", .qualifiedBuiltin "forth.runtime" "$upper"),
  ("$lower", .qualifiedBuiltin "forth.runtime" "$lower"),
  ("$find", .qualifiedBuiltin "forth.runtime" "$find"),
  ("$contains?", .qualifiedBuiltin "forth.runtime" "$contains?"),
  ("$starts?", .qualifiedBuiltin "forth.runtime" "$starts?"),
  ("$ends?", .qualifiedBuiltin "forth.runtime" "$ends?"),
  ("$slice", .qualifiedBuiltin "forth.runtime" "$slice"),
  ("$cmp", .qualifiedBuiltin "forth.runtime" "$cmp"),
  ("$hash", .qualifiedBuiltin "forth.runtime" "$hash"),
  ("$.", .qualifiedBuiltin "forth.runtime" "$."),
  ("$.cr", .qualifiedBuiltin "forth.runtime" "$.cr"),
  ("int>$", .qualifiedBuiltin "forth.runtime" "int>$"),
  ("$>int", .qualifiedBuiltin "forth.runtime" "$>int"),
  (">$", .qualifiedBuiltin "forth.runtime" ">$"),
  ("$>addr", .qualifiedBuiltin "forth.runtime" "$>addr"),
  ("exit", .qualifiedBuiltin "continuations" "return"),
  ("typeof", .qualifiedBuiltin "forth.runtime" "nf-typeof"),
  ("int?", .qualifiedBuiltin "forth.runtime" "nf-int?"),
  ("float?", .qualifiedBuiltin "forth.runtime" "nf-float?"),
  ("string?", .qualifiedBuiltin "forth.runtime" "nf-string?"),
  ("xt?", .qualifiedBuiltin "forth.runtime" "nf-xt?"),
  ("addr?", .qualifiedBuiltin "forth.runtime" "nf-addr-pred?"),
  (".s", .qualifiedBuiltin "forth.runtime" "nf-.s"),
  ("words", .qualifiedBuiltin "forth.runtime" "nf-words"),
  ("dump", .qualifiedBuiltin "forth.runtime" "nf-dump"),
  ("<cells>", .qualifiedBuiltin "forth.runtime" "nf-cells-new"),
  ("cells@", .qualifiedBuiltin "forth.runtime" "nf-cells-at"),
  ("cells!", .qualifiedBuiltin "forth.runtime" "nf-cells-set"),
  ("<rawvec>", .qualifiedBuiltin "forth.runtime" "nf-rawvec"),
  ("rawvec-push", .qualifiedBuiltin "forth.runtime" "nf-rawvec-push"),
  ("rawvec-len", .qualifiedBuiltin "forth.runtime" "nf-rawvec-len"),
  ("rawvec-at", .qualifiedBuiltin "forth.runtime" "nf-rawvec-at"),
  ("rawvec-set", .qualifiedBuiltin "forth.runtime" "nf-rawvec-set"),
  ("call1", .qualifiedBuiltin "forth.runtime" "nf-call1"),
  ("call1>", .qualifiedBuiltin "forth.runtime" "nf-call1>"),
  ("call2>", .qualifiedBuiltin "forth.runtime" "nf-call2>"),
  ("call2", .qualifiedBuiltin "forth.runtime" "nf-call2"),
  ("(clone)", .qualifiedBuiltin "forth.runtime" "nf-clone"),
  ("<hash>", .qualifiedBuiltin "forth.runtime" "nf-hash-new"),
  ("hash-at", .qualifiedBuiltin "forth.runtime" "nf-hash-at"),
  ("hash!", .qualifiedBuiltin "forth.runtime" "nf-hash-set"),
  ("hash-key?", .qualifiedBuiltin "forth.runtime" "nf-hash-key?"),
  ("hash-del", .qualifiedBuiltin "forth.runtime" "nf-hash-del"),
  ("hash-len", .qualifiedBuiltin "forth.runtime" "nf-hash-len"),
  ("hash-keys", .qualifiedBuiltin "forth.runtime" "nf-hash-keys"),
  ("hash-vals", .qualifiedBuiltin "forth.runtime" "nf-hash-values"),
  ("<hashset>", .qualifiedBuiltin "forth.runtime" "nf-set-new"),
  ("hs-add", .qualifiedBuiltin "forth.runtime" "nf-set-add"),
  ("hs-in?", .qualifiedBuiltin "forth.runtime" "nf-set-has?"),
  ("hs-del", .qualifiedBuiltin "forth.runtime" "nf-set-del"),
  ("hs-len", .qualifiedBuiltin "forth.runtime" "nf-set-len"),
  ("hs-members", .qualifiedBuiltin "forth.runtime" "nf-set-members"),
  ("num>chars", .qualifiedBuiltin "forth.runtime" "nf-num>str-chars"),
  ("chars>num", .qualifiedBuiltin "forth.runtime" "nf-str>num"),
  ("capture1", .qualifiedBuiltin "forth.runtime" "nf-capture-1"),
  ("slurp-vec", .qualifiedBuiltin "forth.runtime" "nf-slurp-file"),
  ("spit-vec", .qualifiedBuiltin "forth.runtime" "nf-spit-file"),
  ("file-exists-vec?", .qualifiedBuiltin "forth.runtime" "nf-file-exists?"),
  ("int-type", .qualifiedBuiltin "forth.runtime" "int-type"),
  ("float-type", .qualifiedBuiltin "forth.runtime" "float-type"),
  ("string-type", .qualifiedBuiltin "forth.runtime" "string-type"),
  ("xt-type", .qualifiedBuiltin "forth.runtime" "xt-type"),
  ("addr-type", .qualifiedBuiltin "forth.runtime" "addr-type"),
  ("other-type", .qualifiedBuiltin "forth.runtime" "other-type"),
  ("gpane-open", .qualifiedBuiltin "forth.wf64-gfx" "gpane-open"),
  ("gpane-begin", .qualifiedBuiltin "forth.wf64-gfx" "gpane-begin"),
  ("gpane-present", .qualifiedBuiltin "forth.wf64-gfx" "gpane-present"),
  ("gpane-clear", .qualifiedBuiltin "forth.wf64-gfx" "gpane-clear"),
  ("gpane-fill-rect", .qualifiedBuiltin "forth.wf64-gfx" "gpane-fill-rect"),
  ("gpane-stroke-rect", .qualifiedBuiltin "forth.wf64-gfx" "gpane-stroke-rect"),
  ("gpane-line", .qualifiedBuiltin "forth.wf64-gfx" "gpane-line"),
  ("gpane-fill-circle", .qualifiedBuiltin "forth.wf64-gfx" "gpane-fill-circle"),
  ("gpane-next-event", .qualifiedBuiltin "forth.wf64-gfx" "gpane-next-event"),
  ("doc-open", .qualifiedBuiltin "forth.wf64-gfx" "doc-open"),
  ("doc-set", .qualifiedBuiltin "forth.wf64-gfx" "doc-set"),
  ("doc-append", .qualifiedBuiltin "forth.wf64-gfx" "doc-append"),
  ("ev-none", .qualifiedBuiltin "forth.wf64-gfx" "EV_NONE"),
  ("ev-key", .qualifiedBuiltin "forth.wf64-gfx" "EV_KEY"),
  ("ev-char", .qualifiedBuiltin "forth.wf64-gfx" "EV_CHAR"),
  ("ev-mouse", .qualifiedBuiltin "forth.wf64-gfx" "EV_MOUSE"),
  ("ev-focus", .qualifiedBuiltin "forth.wf64-gfx" "EV_FOCUS"),
  ("ev-resize", .qualifiedBuiltin "forth.wf64-gfx" "EV_RESIZE"),
  ("ev-close", .qualifiedBuiltin "forth.wf64-gfx" "EV_CLOSE"),
  ("ev-frame-close", .qualifiedBuiltin "forth.wf64-gfx" "EV_FRAME_CLOSE"),
  ("ev-tick", .qualifiedBuiltin "forth.wf64-gfx" "EV_TICK")]

end FactorForth.Compiler
