import FactorForth.Protocols.Streams

/-! Copies of collections, and the words that write to a collection. -/

namespace FactorForth.Protocols
variable {α ω : Type}

/-! `clone`. -/

/-- `(clone)`: a new store with the elements of the old one; an object keeps the values of its slots. -/
def shallowClone : Word α ω := bind1 fun
  | .addr a => fun m =>
    match m.heap[a]? with
    | some store => alloc store m
    | none => .error .noMethod
  | v => push v

def cloneMethod : Val (Obj α) → TextWord α ω
  | .grid _ _ _ => seq [
    dup, gridW, over_, gridH,
    rot, gridCells, shallowClone,
    makeGrid]
  | .darray _ => seq [darrayData, shallowClone, makeDarray]
  | .dict _ => seq [dictData, shallowClone, makeDict]
  | .set _ => seq [setData, shallowClone, makeSet]
  -- `string` has no method, so the one of `object` runs
  | _ => shallowClone

/-- `clone ( x -- copy )`. -/
def clone : TextWord α ω := dispatch cloneMethod

/-! Cells of a grid. -/

/-- `(grid-index) ( x y g -- i )`. -/
def gridIndex : Word α ω := seq [gridW, times, plus]

def atXY : TextWord α ω := seq [dup, gridCells, toR, gridIndex, fromR, swap, cellsAt]

def putXY : TextWord α ω := seq [dup, gridCells, toR, gridIndex, fromR, swap, cellsSet]

/-! Removals. -/

section Removals
variable (P : Program α ω)

/-- `delete-at`. -/
def Program.deleteAt (k : Val α) (entries : List (Val α × Val α)) : List (Val α × Val α) :=
  entries.filter fun e => !P.same k e.1

/-- `delete`. -/
def Program.delete (x : Val α) (xs : List (Val α)) : List (Val α) := xs.filter fun y => !P.same x y

/-- `hash-del ( key h -- )`. -/
def hashDel : Word α ω := withStore Store.hash? fun a entries => bind1 fun k =>
  write a (.hash (P.deleteAt k entries))

/-- `hs-del ( elt s -- )`. -/
def hsDel : Word α ω := withStore Store.hashset? fun a xs => bind1 fun x =>
  write a (.hashset (P.delete x xs))

def dictDel : Word α ω := seq [dictData, hashDel P]

def setDel : Word α ω := seq [setData, hsDel P]

end Removals
end FactorForth.Protocols
