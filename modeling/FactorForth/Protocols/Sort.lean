import FactorForth.Protocols.Loops

/-! The loops that a flag ends, and the insertion sort of `collections.f`. -/

namespace FactorForth.Protocols
open FactorForth.Semantics (LoopFrame)
variable {α ω : Type}

/-! `BEGIN … WHILE … REPEAT` and `BEGIN … UNTIL`; `spent` is the end of the fuel. -/

section Begin
variable (P : Program α ω)

/-- `math:zero?` on a flag, turned over. -/
def popFlag : Machine α ω → Except Fault (Bool × Machine α ω) := fun m =>
  match m.stack with
  | v :: st => .ok (P.truthy v, { m with stack := st })
  | [] => .error .underflow

/-- `[ pred math:zero? [ f ] [ body t ] kernel:if ] kernel:loop`. -/
def whileLoop (pred body : List (Word α ω)) : Nat → Word α ω
  | 0 => fun _ => .error .spent
  | fuel + 1 => fun m => do
    let m ← seq pred m
    let (more, m) ← popFlag P m
    if more then
      let m ← seq body m
      whileLoop pred body fuel m
    else .ok m

/-- `[ body math:zero? ] kernel:loop`. -/
def untilLoop (body : List (Word α ω)) : Nat → Word α ω
  | 0 => fun _ => .error .spent
  | fuel + 1 => fun m => do
    let m ← seq body m
    let (done, m) ← popFlag P m
    if done then .ok m else untilLoop body fuel m

variable {P} {pred body : List (Word α ω)} {st : List (Val α)} {fr : List LoopFrame}
  {h : List (Store α)} {w : ω} {v : Val α} {m m' : Machine α ω}

@[simp] theorem popFlag_run : popFlag P ⟨v :: st, fr, h, w⟩ = .ok (P.truthy v, ⟨st, fr, h, w⟩) := rfl

theorem whileLoop_eq (fuel : Nat) (m : Machine α ω) :
    whileLoop P pred body (fuel + 1) m = seq pred m >>= fun m => popFlag P m >>= fun r =>
      if r.1 then seq body r.2 >>= whileLoop P pred body fuel else .ok r.2 := rfl

theorem untilLoop_eq (fuel : Nat) (m : Machine α ω) :
    untilLoop P body (fuel + 1) m = seq body m >>= fun m => popFlag P m >>= fun r =>
      if r.1 then .ok r.2 else untilLoop P body fuel r.2 := rfl

theorem whileLoop_end (hPred : seq pred m = .ok ⟨v :: st, fr, h, w⟩) (hFlag : P.truthy v = false)
    (fuel : Nat) : whileLoop P pred body (fuel + 1) m = .ok ⟨st, fr, h, w⟩ := by
  rw [whileLoop_eq, hPred, ok_bind, popFlag_run, hFlag]
  rfl

theorem whileLoop_next (hPred : seq pred m = .ok ⟨v :: st, fr, h, w⟩) (hFlag : P.truthy v = true)
    (hBody : seq body ⟨st, fr, h, w⟩ = .ok m') (fuel : Nat) :
    whileLoop P pred body (fuel + 1) m = whileLoop P pred body fuel m' := by
  rw [whileLoop_eq, hPred, ok_bind, popFlag_run, hFlag, ok_bind, if_pos rfl, hBody, ok_bind]

theorem untilLoop_end (hBody : seq body m = .ok ⟨v :: st, fr, h, w⟩) (hFlag : P.truthy v = true)
    (fuel : Nat) : untilLoop P body (fuel + 1) m = .ok ⟨st, fr, h, w⟩ := by
  rw [untilLoop_eq, hBody, ok_bind, popFlag_run, hFlag]
  rfl

theorem untilLoop_next (hBody : seq body m = .ok ⟨v :: st, fr, h, w⟩) (hFlag : P.truthy v = false)
    (fuel : Nat) : untilLoop P body (fuel + 1) m = untilLoop P body fuel ⟨st, fr, h, w⟩ := by
  rw [untilLoop_eq, hBody, ok_bind, popFlag_run, hFlag]
  rfl

end Begin

/-- Counted loops whose passes keep an invariant and do the same to the machine. -/
theorem qdoLoop_keeps {ι : Type} {body : ι → List (Word α ω)} (Inv : Nat → Machine α ω → Prop)
    {lo hi : Nat} (hLe : lo ≤ hi)
    (hBody : ∀ i m, lo ≤ i → i < hi → Inv i m →
      ∃ m', (∀ k, seq (body k) (m.inLoop hi i) = .ok (m'.inLoop hi i)) ∧ Inv (i + 1) m')
    {m : Machine α ω} (hStart : Inv lo m) :
    ∃ m', (∀ k, qdoLoop (body k) (m.withBounds hi lo) = .ok m') ∧ Inv hi m' := by
  rcases hLe.eq_or_lt with rfl | hLess
  · exact ⟨m, fun k => if_pos rfl, hStart⟩
  have hPasses : ∀ fuel i m, lo ≤ i → i < hi → hi - i ≤ fuel → Inv i m →
      ∃ m', (∀ k, passes (body k) fuel (m.inLoop hi i) = .ok (m'.inLoop hi hi)) ∧ Inv hi m' := by
    intro fuel
    induction fuel with
    | zero =>
      intro i m _ hHi hFuel
      omega
    | succ fuel ih =>
      intro i m hLo hHi hFuel hInv
      obtain ⟨m', hPass, hInv'⟩ := hBody i m hLo hHi hInv
      by_cases hMore : i + 1 < hi
      · obtain ⟨m'', hRun, hEnd⟩ := ih (i + 1) m' (by omega) hMore (by omega) hInv'
        refine ⟨m'', fun k => ?_, hEnd⟩
        rw [passes_succ (hPass k), if_neg (by omega)]
        exact hRun k
      · obtain rfl : hi = i + 1 := by omega
        refine ⟨m', fun k => ?_, hInv'⟩
        rw [passes_succ (hPass k), if_pos (by omega)]
        rfl
  have hNe : (hi : Int) ≠ lo := by omega
  obtain ⟨m', hRun, hInv⟩ := hPasses (max 1 ((hi : Int) - lo)).toNat lo m le_rfl hLess (by omega) hStart
  refine ⟨m', fun k => ?_, hInv⟩
  rw [qdoLoop_of_ne hNe, doLoop_withBounds, hRun k]
  rfl

/-! The sort. -/

/-- `at ( i c -- x )` and `at! ( x i c -- )` that fault outside of `0 .. size - 1`. -/
def guarded (access : Word α ω) : Word α ω := fun m =>
  match m.stack with
  | c :: .int i :: _ =>
    match size { m with stack := [c] } with
    | .ok ⟨[.int n], _, _, _⟩ => if 0 ≤ i ∧ i < n then access m else .error .bounds
    | _ => .error .bounds
  | _ => .error .bounds

section Sorting
variable (P : Program α ω) (fuel : Nat)

section Access
variable (at_ put : Word α ω)

/-- `insert-at-i` over any words for `at` and `at!`. -/
def insertAtIOver : Word α ω := bind2 fun c i => seq [
  push i, push c, at_, bind1 fun key => seq [
  push i,
  whileLoop P
    [dup, lit 0, greaterThan, ifElse P
      [dup, oneMinus, push c, at_, push key, cmp P, zeroGreater]
      [lit 0]]
    [dup, oneMinus, push c, at_, over_, push c, put,
      oneMinus]
    fuel,
  push key, swap, push c, put]]

def sortOver : Word α ω := bind1 fun c => seq [
  push c, size, lit 1, qdoLoop [push c, index, insertAtIOver P fuel at_ put]]

end Access

/-- `insert-at-i ( c i -- )`. -/
def insertAtI : Word α ω := insertAtIOver P fuel elementAt (putAt P)

/-- `sort ( c -- )`. -/
def sort : Word α ω := sortOver P fuel elementAt (putAt P)

end Sorting
end FactorForth.Protocols
