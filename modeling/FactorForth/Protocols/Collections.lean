import FactorForth.Protocols.Words

/-! The collection classes and the algorithms over their protocol, as `collections.f` writes them;
strings join the protocol in `streams.f`. -/

namespace FactorForth.Protocols
variable {α ω : Type}

/-! The classes. -/

/-- `<grid> ( w h cells -- g )`. -/
def makeGrid : Word α ω := bind3 fun
  | .int w, .int h, .addr a => push (.grid w h a)
  | _, _, _ => fun _ => .error .noMethod

/-- `<darray> ( data -- d )`. -/
def makeDarray : Word α ω := bind1 fun
  | .addr a => push (.darray a)
  | _ => fun _ => .error .noMethod

/-- `<string> ( chars -- s )`. -/
def makeString : Word α ω := bind1 fun chars => push (.string chars)

/-- `<dict> ( data -- d )`. -/
def makeDict : Word α ω := bind1 fun
  | .addr a => push (.dict a)
  | _ => fun _ => .error .noMethod

/-- `<set> ( data -- s )`. -/
def makeSet : Word α ω := bind1 fun
  | .addr a => push (.set a)
  | _ => fun _ => .error .noMethod

def gridW : Word α ω := bind1 fun
  | .grid w _ _ => push (.int w)
  | _ => fun _ => .error .noMethod

def gridH : Word α ω := bind1 fun
  | .grid _ h _ => push (.int h)
  | _ => fun _ => .error .noMethod

def gridCells : Word α ω := bind1 fun
  | .grid _ _ a => push (.addr a)
  | _ => fun _ => .error .noMethod

def darrayData : Word α ω := bind1 fun
  | .darray a => push (.addr a)
  | _ => fun _ => .error .noMethod

def stringChars : Word α ω := bind1 fun
  | .string chars => push chars
  | _ => fun _ => .error .noMethod

def dictData : Word α ω := bind1 fun
  | .dict a => push (.addr a)
  | _ => fun _ => .error .noMethod

def setData : Word α ω := bind1 fun
  | .set a => push (.addr a)
  | _ => fun _ => .error .noMethod

def newDarray : Word α ω := seq [newRawvec, makeDarray]

def dPush : Word α ω := seq [darrayData, rawvecPush]

/-! The collection protocol: each generic runs the method of the class on top of the stack. -/

def sizeMethod : Val α → Word α ω
  | .grid _ _ _ => seq [dup, gridW, swap, gridH, times]
  | .darray _ => seq [darrayData, rawvecLen]
  | .string chars => seq [stringChars, sizeMethod chars]
  | .dict _ => seq [dictData, hashLen]
  | .set _ => seq [setData, hsLen]
  | _ => fun _ => .error .noMethod

def atMethod : Val α → Word α ω
  | .grid _ _ _ => seq [gridCells, swap, cellsAt]
  | .darray _ => seq [darrayData, rawvecAt]
  | .string chars => seq [stringChars, atMethod chars]
  | _ => fun _ => .error .noMethod

/-- Run the method that the class of the top of the stack has. -/
def dispatch (method : Val α → Word α ω) : Word α ω := fun m =>
  match m.stack with
  | c :: _ => method c m
  | [] => .error .underflow

/-- `size ( c -- n )`. -/
def size : Word α ω := dispatch sizeMethod

/-- `at ( i c -- x )`. -/
def elementAt : Word α ω := dispatch atMethod

section Protocol
variable (P : Program α ω)

def putMethod : Val α → Word α ω
  | .grid _ _ _ => seq [gridCells, swap, cellsSet]
  | .darray _ => seq [darrayData, rawvecSet P]
  | .string chars => seq [stringChars, putMethod chars]
  | _ => fun _ => .error .noMethod

/-- `at! ( x i c -- )`. -/
def putAt : Word α ω := dispatch (putMethod P)

end Protocol

def newLikeMethod : Val α → Word α ω
  | .grid _ _ _ => seq [dup, gridW, swap, gridH, twoDup, times, newCells, makeGrid]
  | .darray _ => bind1 fun _ => seq [newRawvec, makeDarray]
  | .string _ => bind1 fun _ => seq [newDarray, makeString]
  | _ => fun _ => .error .noMethod

/-- `new-like ( c -- d )`. -/
def newLike : Word α ω := dispatch newLikeMethod

/-! Dicts and sets. -/

def newDict : Word α ω := seq [newHash, makeDict]

def newSet : Word α ω := seq [newHashset, makeSet]

def setAdd (P : Program α ω) : Word α ω := seq [setData, hsAdd P]

def setHas? (P : Program α ω) : Word α ω := seq [setData, hsIn? P]

def setMembers (P : Program α ω) : Word α ω := seq [setData, hsMembers P, makeDarray]

def dictAt (P : Program α ω) : Word α ω := seq [dictData, hashAt P]

def dictSet (P : Program α ω) : Word α ω := seq [dictData, hashSet P]

def dictKeys (P : Program α ω) : Word α ω := seq [dictData, hashKeys P, makeDarray]

/-! The algorithms. -/

section Algorithms
variable (P : Program α ω)

def each : Word α ω := bind2 fun c xt => seq [
  push c, size, lit 0, doLoop [
    index, push c, elementAt, push xt, call1 P]]

def map : Word α ω := bind2 fun c xt => seq [
  push c, newLike, bind1 fun dst => seq [
  push c, size, lit 0, qdoLoop [
    index, push c, elementAt, push xt, call1r P,
    index, push dst, putAt P],
  push dst]]

def filter : Word α ω := bind2 fun c xt => seq [
  newDarray, bind1 fun dst => seq [
  push c, size, lit 0, doLoop [
    index, push c, elementAt,
    dup, push xt, call1r P,
    ifElse P [push dst, dPush] [drop]],
  push dst]]

def fold : Word α ω := bind3 fun c init xt => seq [
  push init,
  push c, size, lit 0, doLoop [
    index, push c, elementAt, push xt, call2r P]]

def tally : Word α ω := bind2 fun c xt => seq [
  lit 0,
  push c, size, lit 0, qdoLoop [
    index, push c, elementAt, push xt, call1r P,
    ifElse P [onePlus] []]]

def any? : Word α ω := seq [tally P, lit 0, greaterThan]

def all? : Word α ω := bind2 fun c xt => seq [
  lit (-1),
  push c, size, lit 0, qdoLoop [
    index, push c, elementAt, push xt, call1r P, bitand]]

def find : Word α ω := bind2 fun c xt => seq [
  lit 0, lit 0,
  push c, size, lit 0, qdoLoop [
    index, push c, elementAt,
    dup, push xt, call1r P,
    ifElse P
      [over_, zeroEqual P, ifElse P
        [nip, nip, lit (-1)]
        [drop]]
      [drop]]]

def member? : Word α ω := bind2 fun x c => seq [
  lit 0,
  push c, size, lit 0, qdoLoop [
    push x, index, push c, elementAt, equals? P, bitor]]

def indexOf : Word α ω := bind2 fun x c => seq [
  lit 0, lit 0,
  push c, size, lit 0, qdoLoop [
    push x, index, push c, elementAt, equals? P,
    ifElse P
      [dup, zeroEqual P, ifElse P
        [twoDrop, index, lit (-1)]
        []]
      []]]

def minOf : Word α ω := seq [dup, lit 0, swap, elementAt, push (.tick .lesser), fold P]

def maxOf : Word α ω := seq [dup, lit 0, swap, elementAt, push (.tick .greater), fold P]

def sorted? : Word α ω := bind1 fun c => seq [
  lit (-1),
  push c, size, lit 1, qdoLoop [
    index, oneMinus, push c, elementAt, index, push c, elementAt, cmp P, zeroGreater, zeroEqual P,
    bitand]]

def reverse : Word α ω := bind1 fun c => seq [
  push c, newLike, bind1 fun dst => seq [
  push c, size, lit 0, qdoLoop [
    push c, size, oneMinus, index, minus, push c, elementAt,
    index, push dst, putAt P],
  push dst]]

def mapIndex : Word α ω := bind2 fun c xt => seq [
  push c, newLike, bind1 fun dst => seq [
  push c, size, lit 0, qdoLoop [
    index, index, push c, elementAt, push xt, call2r P,
    index, push dst, putAt P],
  push dst]]

def reduce : Word α ω := bind2 fun c xt => seq [
  lit 0, push c, elementAt,
  push c, size, lit 1, qdoLoop [
    index, push c, elementAt, push xt, call2r P]]

def partition : Word α ω := bind2 fun c xt => seq [
  newDarray, bind1 fun yes => seq [
  newDarray, bind1 fun no => seq [
  push c, size, lit 0, qdoLoop [
    index, push c, elementAt,
    dup, push xt, call1r P,
    ifElse P [push yes, dPush] [push no, dPush]],
  push yes, push no]]]

def take : Word α ω := bind2 fun c n => seq [
  newDarray, bind1 fun dst => seq [
  push n, push c, size, min_, lit 0, qdoLoop [
    index, push c, elementAt, push dst, dPush],
  push dst]]

def skip : Word α ω := bind2 fun c n => seq [
  newDarray, bind1 fun dst => seq [
  push c, size, push n, push c, size, min_, qdoLoop [
    index, push c, elementAt, push dst, dPush],
  push dst]]

def concat : Word α ω := bind2 fun a b => seq [
  newDarray, bind1 fun dst => seq [
  push a, size, lit 0, qdoLoop [index, push a, elementAt, push dst, dPush],
  push b, size, lit 0, qdoLoop [index, push b, elementAt, push dst, dPush],
  push dst]]

def setUnion : Word α ω := bind2 fun a b => seq [
  newSet, bind1 fun dst => seq [
  push b, setMembers P, bind1 fun bm => seq [
  push bm, size, lit 0, qdoLoop [index, push bm, elementAt, push dst, setAdd P],
  push a, setMembers P, bind1 fun am => seq [
  push am, size, lit 0, qdoLoop [index, push am, elementAt, push dst, setAdd P],
  push dst]]]]

def setIntersect : Word α ω := bind2 fun a b => seq [
  newSet, bind1 fun dst => seq [
  push a, setMembers P, bind1 fun am => seq [
  push am, size, lit 0, qdoLoop [
    index, push am, elementAt, dup, push b, setHas? P,
    ifElse P [push dst, setAdd P] [drop]],
  push dst]]]

def setDifference : Word α ω := bind2 fun a b => seq [
  newSet, bind1 fun dst => seq [
  push a, setMembers P, bind1 fun am => seq [
  push am, size, lit 0, qdoLoop [
    index, push am, elementAt, dup, push b, setHas? P,
    ifElse P [drop] [push dst, setAdd P]],
  push dst]]]

def subset? : Word α ω := bind2 fun a b => seq [
  lit (-1),
  push a, setMembers P, bind1 fun am => seq [
  push am, size, lit 0, qdoLoop [
    index, push am, elementAt, push b, setHas? P, bitand]]]

def dictMerge : Word α ω := bind2 fun a b => seq [
  newDict, bind1 fun result => seq [
  push a, dictKeys P, bind1 fun aks => seq [
  push aks, size, lit 0, qdoLoop [
    index, push aks, elementAt,
    dup, push a, dictAt P, drop,
    swap, push result, dictSet P],
  push b, dictKeys P, bind1 fun bks => seq [
  push bks, size, lit 0, qdoLoop [
    index, push bks, elementAt,
    dup, push b, dictAt P, drop,
    swap, push result, dictSet P],
  push result]]]]

end Algorithms
end FactorForth.Protocols
