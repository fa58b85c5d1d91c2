import FactorForth.Protocols.Streams

/-! The text words of `streams.f`: strings from literals, parts of strings, trimming, padding and
`format`. -/

namespace FactorForth.Protocols
variable {α ω : Type}

section Literals
variable (stray : List UInt8 → Nat → UInt8)

/-- `s-quote-runtime ( factor-str -- nf-addr u )`. -/
def sQuoteRuntime (text : List Char) : TextWord α ω := seq [
  push (.other (.nfAddr (text.flatMap String.utf8EncodeChar) 0)),
  lit (text.flatMap String.utf8EncodeChar).length]

/-- `c@ ( addr -- ch )`, which checks no bounds: `stray` is what the memory holds elsewhere. -/
def cFetch : TextWord α ω := bind1 fun
  | .other (.nfAddr ba off) => lit (ba[off]?.getD (stray ba off)).toNat
  | _ => fun _ => .error .noMethod

def charPlus : TextWord α ω := bind1 fun
  | .other (.nfAddr ba off) => push (.other (.nfAddr ba (off + 1)))
  | _ => fun _ => .error .noMethod

/-- `>string ( c-addr u -- s )`. -/
def toText : TextWord α ω := seq [
  swap, newDarray, rot, lit 0, doLoop [
    over_, cFetch stray, over_, dPush,
    swap, charPlus, swap],
  nip, makeString]

end Literals

section Words
variable (P : TextProgram α ω) (fuel : Nat)

def subseq : TextWord α ω := bind3 fun s start end_ => seq [
  newString, bind1 fun dst => seq [
  push end_, push start, qdoLoop [
    index, push s, elementAt, push dst, stringPush],
  push dst]]

/-- `whitespace-char?` of `core.f`. -/
def whitespaceChar? : TextWord α ω := seq [
  dup, lit 32, equal P, over_, lit 9, equal P, bitor,
  over_, lit 10, equal P, bitor, swap, lit 13, equal P, bitor]

def skipWsLeft : TextWord α ω := bind2 fun s i => seq [
  push i,
  whileLoop P
    [dup, push s, size, lessThan, ifElse P [dup, push s, elementAt, whitespaceChar? P] [lit 0]]
    [onePlus] fuel]

def skipWsRight : TextWord α ω := bind2 fun s i => seq [
  push i,
  whileLoop P
    [dup, lit 0, greaterThan, ifElse P
      [dup, oneMinus, push s, elementAt, whitespaceChar? P]
      [lit 0]]
    [oneMinus] fuel]

def trimLeft : TextWord α ω := bind1 fun s => seq [
  push s, lit 0, skipWsLeft P fuel, bind1 fun start => seq [
  push s, push start, push s, size, subseq]]

def trimRight : TextWord α ω := bind1 fun s => seq [
  push s, push s, size, skipWsRight P fuel, bind1 fun end_ => seq [
  push s, lit 0, push end_, subseq]]

def trim : TextWord α ω := bind1 fun s => seq [
  push s, lit 0, skipWsLeft P fuel, bind1 fun start => seq [
  push s, push s, size, skipWsRight P fuel, bind1 fun end_ => seq [
  push end_, push start, lessThan, ifElse P
    [newString]
    [push s, push start, push end_, subseq]]]]

def substringAt? : TextWord α ω := bind3 fun s pos needle => seq [
  push pos, push needle, size, plus, push s, size, greaterThan, ifElse P
    [lit 0]
    [lit (-1),
      push needle, size, lit 0, qdoLoop [
        index, push needle, elementAt, index, push pos, plus, push s, elementAt, equal P, bitand]]]

def startsWith? : TextWord α ω := bind2 fun s pre => seq [push s, lit 0, push pre, substringAt? P]

def endsWith? : TextWord α ω := bind2 fun s suffix => seq [
  push s, size, push suffix, size, minus, bind1 fun off => seq [
  push off, lit 0, lessThan, ifElse P [lit 0] [push s, push off, push suffix, substringAt? P]]]

def contains? : TextWord α ω := bind2 fun s needle => seq [
  push needle, size, push s, size, greaterThan, ifElse P
    [lit 0]
    [lit 0,
      push s, size, push needle, size, minus, onePlus, lit 0, qdoLoop [
        push s, index, push needle, substringAt? P, bitor]]]

/-- The characters of a string onto a new one, as the words below write it. -/
def copyChars (s dst : Val (Obj α)) : List (TextWord α ω) := [
  push s, size, lit 0, qdoLoop [index, push s, elementAt, push dst, stringPush]]

def padLeft : TextWord α ω := bind3 fun s n ch => seq [
  newString, bind1 fun dst => seq ([
  push n, push s, size, minus, lit 0, max_, lit 0, qdoLoop [push ch, push dst, stringPush]] ++
  copyChars s dst ++ [
  push dst])]

def padRight : TextWord α ω := bind3 fun s n ch => seq [
  newString, bind1 fun dst => seq (
  copyChars s dst ++ [
  push n, push s, size, minus, lit 0, max_, lit 0, qdoLoop [push ch, push dst, stringPush],
  push dst])]

def repeatChar : TextWord α ω := bind2 fun ch n => seq [
  newString, bind1 fun dst => seq [
  push n, lit 0, max_, lit 0, qdoLoop [push ch, push dst, stringPush],
  push dst]]

def repeatString : TextWord α ω := bind2 fun s n => seq [
  newString, bind1 fun dst => seq [
  push n, lit 0, max_, lit 0, qdoLoop (copyChars s dst),
  push dst]]

/-! Formatting. -/

def markerAt? : TextWord α ω := bind2 fun s i => seq [
  push i, lit 1, plus, push s, size, lessThan, ifElse P
    [push i, push s, elementAt, lit 123, equal P,
      push i, lit 1, plus, push s, elementAt, lit 125, equal P, bitand]
    [lit 0]]

def pushChars : TextWord α ω := bind2 fun src dst => seq (copyChars src dst)

/-- `to-string ( x -- s )`; what it renders, a number or the output of `show`, is the program's. -/
def toString (render : Val (Obj α) → StateM (Returns α ω) (List Int)) : TextWord α ω := bind1 fun x =>
  inWorld (render x) fun text => seq [alloc (.rawvec (text.map .int)), makeDarray, makeString]

variable (render : Val (Obj α) → StateM (Returns α ω) (List Int))

def format : TextWord α ω := bind2 fun s d => seq [
  newString, bind1 fun result => seq [
  lit 0, lit 0,
  whileLoop P
    [dup, push s, size, lessThan]
    [push s, over_, markerAt? P, ifElse P
      [swap,
        dup, push d, elementAt, toString render, push result, pushChars,
        lit 1, plus,
        swap, lit 2, plus]
      [dup, push s, elementAt, push result, stringPush,
        lit 1, plus]] fuel,
  twoDrop,
  push result]]

end Words
end FactorForth.Protocols
