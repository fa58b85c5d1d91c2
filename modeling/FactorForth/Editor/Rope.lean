import Mathlib.Algebra.Order.Ring.Int
import Mathlib.Data.List.Basic

/-! The rope of the text editor: an AVL tree over bounded leaves of code points. An access that would
be out of range, or a branch taken for a leaf, makes the operation fail. -/

namespace FactorForth.Editor

def leafMax : Nat := 2048

def newline : UInt32 := 0x0A

def countNewlines (buf : List UInt32) : Nat := buf.countP (· == newline)

inductive Node where
  | leaf (buf : List UInt32) (newlineCount : Nat)
  | branch (left right : Node) (leftLen totalLen totalNewlines height : Nat)

namespace Node

def textLen : Node → Nat
  | leaf buf _ => buf.length
  | branch _ _ _ totalLen _ _ => totalLen

def newlines : Node → Nat
  | leaf _ newlineCount => newlineCount
  | branch _ _ _ _ totalNewlines _ => totalNewlines

def cachedHeight : Node → Nat
  | leaf _ _ => 0
  | branch _ _ _ _ _ height => height

/-- A leaf with its newlines counted. -/
def ofBuf (buf : List UInt32) : Node := leaf buf (countNewlines buf)

def emptyLeaf : Node := ofBuf []

/-- A branch with its metrics taken from the children. -/
def join (l r : Node) : Node :=
  branch l r l.textLen (l.textLen + r.textLen) (l.newlines + r.newlines)
    (1 + max l.cachedHeight r.cachedHeight)

def balanceFactor : Node → Int
  | leaf _ _ => 0
  | branch l r _ _ _ _ => (l.cachedHeight : Int) - r.cachedHeight

/-- The number of nodes. -/
def size : Node → Nat
  | leaf _ _ => 1
  | branch l r _ _ _ _ => 1 + l.size + r.size

end Node

open Node

/-- `&xs[start..stop]`. -/
def sliceOf {α : Type} (xs : List α) (start stop : Nat) : Option (List α) :=
  if start ≤ stop ∧ stop ≤ xs.length then some ((xs.drop start).take (stop - start)) else none

/-! Building, bottom up. -/

def mergePairs : List Node → List Node
  | l :: r :: rest => Node.join l r :: mergePairs rest
  | [l] => [l]
  | [] => []

theorem mergePairs_length : ∀ nodes : List Node, (mergePairs nodes).length = (nodes.length + 1) / 2
  | [] => by simp [mergePairs]
  | [_] => by simp [mergePairs]
  | l :: r :: rest => by
    rw [mergePairs, List.length_cons, mergePairs_length rest]
    simp only [List.length_cons]
    omega

/-- Merge neighbours until one root is left. -/
def mergeAll (nodes : List Node) : Option Node :=
  match _h : nodes with
  | [] => none
  | [root] => some root
  | _ :: _ :: _ => mergeAll (mergePairs nodes)
termination_by nodes.length
decreasing_by
  rw [mergePairs_length, _h]
  simp only [List.length_cons]
  omega

def chunkCount (len : Nat) : Nat := (len + leafMax - 1) / leafMax

def chunk (text : List UInt32) (i : Nat) : Option Node :=
  (sliceOf text (i * leafMax) (min (i * leafMax + leafMax) text.length)).map ofBuf

def buildRopeFromSlice (text : List UInt32) : Option Node :=
  if text.isEmpty then some emptyLeaf
  else if chunkCount text.length = 1 then some (ofBuf text)
  else ((List.range (chunkCount text.length)).mapM (chunk text)).bind mergeAll

/-! Lookup. -/

def charAtNode : Node → Nat → Option UInt32
  | leaf buf _, pos => buf[pos]?
  | branch left right leftLen _ _ _, pos =>
    if pos < leftLen then charAtNode left pos else charAtNode right (pos - leftLen)

def collectRange : Node → Nat → Nat → Option (List UInt32)
  | leaf buf _, start, stop =>
    if stop ≤ start then some []
    else sliceOf buf (min start buf.length) (min stop buf.length)
  | branch left right leftLen _ _ _, start, stop =>
    if stop ≤ start then some []
    else
      (if start < leftLen then collectRange left start (min stop leftLen) else some []).bind fun l =>
        (if leftLen < stop then collectRange right (start - leftLen) (stop - leftLen)
          else some []).map fun r => l ++ r

/-! Rotation and balance. -/

def takeChildren : Node → Option (Node × Node)
  | branch left right _ _ _ _ => some (left, right)
  | leaf _ _ => none

def rotateRight : Node → Node
  | branch (branch ll lr _ _ _ _) nodeR _ _ _ _ => Node.join ll (Node.join lr nodeR)
  | branch left nodeR _ _ _ _ => Node.join left nodeR
  | node => node

def rotateLeft : Node → Node
  | branch nodeL (branch rl rr _ _ _ _) _ _ _ _ => Node.join (Node.join nodeL rl) rr
  | branch nodeL right _ _ _ _ => Node.join nodeL right
  | node => node

def balance (node : Node) : Option Node :=
  if 1 < node.balanceFactor then
    (takeChildren node).map fun (left, right) =>
      if left.balanceFactor < 0 then rotateRight (Node.join (rotateLeft left) right)
      else rotateRight (Node.join left right)
  else if node.balanceFactor < -1 then
    (takeChildren node).map fun (left, right) =>
      if 0 < right.balanceFactor then rotateLeft (Node.join left (rotateRight right))
      else rotateLeft (Node.join left right)
  else some node

/-! Joining and splitting. -/

/-- Two leaves that fit into one. -/
def mergedLeaf : Node → Node → Option Node
  | leaf lbuf _, leaf rbuf _ =>
    if lbuf.length + rbuf.length ≤ leafMax then some (ofBuf (lbuf ++ rbuf)) else none
  | _, _ => none

def joinNodes (left right : Node) : Option Node :=
  if left.textLen = 0 then some right
  else if right.textLen = 0 then some left
  else match mergedLeaf left right with
    | some merged => some merged
    | none =>
      if left.cachedHeight ≤ right.cachedHeight + 1 ∧ right.cachedHeight ≤ left.cachedHeight + 1 then
        some (Node.join left right)
      else if right.cachedHeight < left.cachedHeight then
        match left with
        | leaf _ _ => none
        | branch ll lr _ _ _ _ =>
          (joinNodes lr right).bind fun newRight => balance (Node.join ll newRight)
      else
        match right with
        | leaf _ _ => none
        | branch rl rr _ _ _ _ =>
          (joinNodes left rl).bind fun newLeft => balance (Node.join newLeft rr)
termination_by left.size + right.size
decreasing_by all_goals (simp only [Node.size]; omega)

/-- The first `pos` code points, and the rest. -/
def splitNode (node : Node) (pos : Nat) : Option (Node × Node) :=
  if pos = 0 then some (emptyLeaf, node)
  else if node.textLen ≤ pos then some (node, emptyLeaf)
  else match node with
    | leaf buf _ =>
      if pos ≤ buf.length then some (ofBuf (buf.take pos), ofBuf (buf.drop pos)) else none
    | branch left right leftLen _ _ _ =>
      if pos = leftLen then some (left, right)
      else if pos < leftLen then do
        let (ll, lr) ← splitNode left pos
        let newRight ← joinNodes lr right
        return (ll, newRight)
      else do
        let (rl, rr) ← splitNode right (pos - leftLen)
        let newLeft ← joinNodes left rl
        return (newLeft, rr)

def insertNode (root : Node) (pos : Nat) (insertion : Node) : Option Node := do
  let (l, r) ← splitNode root pos
  let left ← joinNodes l insertion
  joinNodes left r

def deleteRange (root : Node) (pos count : Nat) : Option Node := do
  let (before, rest) ← splitNode root pos
  let (_, after) ← splitNode rest count
  joinNodes before after

/-! UTF-8. -/

def isContinuation (b : UInt8) : Bool := b &&& 0xC0 == 0x80

def low (b mask : UInt8) (shift : UInt32) : UInt32 := (b &&& mask).toUInt32 <<< shift

/-- The code point that starts with byte `b`, and how many of the following bytes belong to it. -/
def decodeOne (b : UInt8) (rest : List UInt8) : UInt32 × Nat :=
  if b = 0x0D then (newline, if rest.head? = some 0x0A then 1 else 0)
  else if b < 0x80 then (b.toUInt32, 0)
  else if b &&& 0xE0 = 0xC0 then
    match rest with
    | b1 :: _ => if isContinuation b1 then (low b 0x1F 6 ||| low b1 0x3F 0, 1) else (0xFFFD, 0)
    | _ => (0xFFFD, 0)
  else if b &&& 0xF0 = 0xE0 then
    match rest with
    | b1 :: b2 :: _ =>
      if isContinuation b1 && isContinuation b2 then
        (low b 0x0F 12 ||| low b1 0x3F 6 ||| low b2 0x3F 0, 2)
      else (0xFFFD, 0)
    | _ => (0xFFFD, 0)
  else if b &&& 0xF8 = 0xF0 then
    match rest with
    | b1 :: b2 :: b3 :: _ =>
      if isContinuation b1 && isContinuation b2 && isContinuation b3 then
        (low b 0x07 18 ||| low b1 0x3F 12 ||| low b2 0x3F 6 ||| low b3 0x3F 0, 3)
      else (0xFFFD, 0)
    | _ => (0xFFFD, 0)
  else (0xFFFD, 0)

/-- The walk over the bytes; `skip` of them are already taken. -/
def decodeFrom : Nat → List UInt8 → List UInt32
  | _, [] => []
  | skip + 1, _ :: rest => decodeFrom skip rest
  | 0, b :: rest => (decodeOne b rest).1 :: decodeFrom (decodeOne b rest).2 rest

def utf8ToCodepoints (utf8 : List UInt8) : List UInt32 :=
  decodeFrom (if utf8.take 3 = [0xEF, 0xBB, 0xBF] then 3 else 0) utf8

/-! The public operations. -/

structure RopeBuffer where
  root : Node

namespace RopeBuffer

def new : RopeBuffer := ⟨emptyLeaf⟩

def fromSlice (text : List UInt32) : Option RopeBuffer := (buildRopeFromSlice text).map mk

def fromUtf8 (utf8 : List UInt8) : Option RopeBuffer := fromSlice (utf8ToCodepoints utf8)

def len (r : RopeBuffer) : Nat := r.root.textLen

/-- The code point at `pos`: nothing out of bounds, and inside a failing or a good access. -/
def charAt (r : RopeBuffer) (pos : Nat) : Option (Option UInt32) :=
  if r.len ≤ pos then some none else (charAtNode r.root pos).map some

def insert (r : RopeBuffer) (pos : Nat) (text : List UInt32) : Option RopeBuffer :=
  if text.isEmpty then some r
  else (buildRopeFromSlice text).bind fun insertion => (insertNode r.root pos insertion).map mk

def delete (r : RopeBuffer) (pos count : Nat) : Option RopeBuffer :=
  if count = 0 ∨ r.len ≤ pos then some r
  else (deleteRange r.root pos (min count (r.len - pos))).map mk

def replace (r : RopeBuffer) (pos count : Nat) (text : List UInt32) : Option RopeBuffer :=
  (r.delete pos count).bind fun r => r.insert pos text

def slice (r : RopeBuffer) (start stop : Nat) : Option (List UInt32) :=
  let s := min start r.len
  let e := min stop r.len
  if e ≤ s then some [] else collectRange r.root s e

end RopeBuffer
end FactorForth.Editor
