import FactorForth.Library.Visits
import FactorForth.Protocols.Collections

/-! How the words run: the words of a body in turn, the counted loops by the states between their
passes, and the protocol words on a collection whose elements are known. -/

namespace FactorForth.Protocols
open FactorForth.Library
open FactorForth.Semantics (LoopFrame)
variable {α ω : Type}

section Steps
variable (st : List (Val α)) (fr : List LoopFrame) (h : List (Store α)) (w : ω)

@[simp] theorem seq_nil (m : Machine α ω) : seq [] m = .ok m := rfl

@[simp] theorem seq_cons (x : Word α ω) (xs : List (Word α ω)) (m : Machine α ω) :
    seq (x :: xs) m = x m >>= seq xs := rfl

@[simp] theorem ok_bind {β γ : Type} (a : β) (f : β → Except Fault γ) :
    (Except.ok a >>= f) = f a := rfl

@[simp] theorem error_bind {β γ : Type} (e : Fault) (f : β → Except Fault γ) :
    ((Except.error e : Except Fault β) >>= f) = .error e := rfl

@[simp] theorem bind_seq_nil (x : Except Fault (Machine α ω)) : (x >>= seq []) = x := by
  cases x <;> rfl

@[simp] theorem push_run (v : Val α) :
    push v (⟨st, fr, h, w⟩ : Machine α ω) = .ok ⟨v :: st, fr, h, w⟩ := rfl

@[simp] theorem lit_run (n : Int) :
    lit n (⟨st, fr, h, w⟩ : Machine α ω) = .ok ⟨.int n :: st, fr, h, w⟩ := rfl

@[simp] theorem dup_run (x : Val α) :
    dup (⟨x :: st, fr, h, w⟩ : Machine α ω) = .ok ⟨x :: x :: st, fr, h, w⟩ := rfl

@[simp] theorem drop_run (x : Val α) :
    drop (⟨x :: st, fr, h, w⟩ : Machine α ω) = .ok ⟨st, fr, h, w⟩ := rfl

@[simp] theorem swap_run (x y : Val α) :
    swap (⟨y :: x :: st, fr, h, w⟩ : Machine α ω) = .ok ⟨x :: y :: st, fr, h, w⟩ := rfl

@[simp] theorem over_run (x y : Val α) :
    over_ (⟨y :: x :: st, fr, h, w⟩ : Machine α ω) = .ok ⟨x :: y :: x :: st, fr, h, w⟩ := rfl

@[simp] theorem nip_run (x y : Val α) :
    nip (⟨y :: x :: st, fr, h, w⟩ : Machine α ω) = .ok ⟨y :: st, fr, h, w⟩ := rfl

@[simp] theorem twoDup_run (x y : Val α) :
    twoDup (⟨y :: x :: st, fr, h, w⟩ : Machine α ω) = .ok ⟨y :: x :: y :: x :: st, fr, h, w⟩ := rfl

@[simp] theorem twoDrop_run (x y : Val α) :
    twoDrop (⟨y :: x :: st, fr, h, w⟩ : Machine α ω) = .ok ⟨st, fr, h, w⟩ := rfl

@[simp] theorem bind1_run (k : Val α → Word α ω) (x : Val α) :
    bind1 k ⟨x :: st, fr, h, w⟩ = k x ⟨st, fr, h, w⟩ := rfl

@[simp] theorem bind2_run (k : Val α → Val α → Word α ω) (x y : Val α) :
    bind2 k ⟨y :: x :: st, fr, h, w⟩ = k x y ⟨st, fr, h, w⟩ := rfl

@[simp] theorem bind3_run (k : Val α → Val α → Val α → Word α ω) (x y z : Val α) :
    bind3 k ⟨z :: y :: x :: st, fr, h, w⟩ = k x y z ⟨st, fr, h, w⟩ := rfl

@[simp] theorem int1_run (f : Int → Int) (a : Int) :
    int1 f (⟨.int a :: st, fr, h, w⟩ : Machine α ω) = .ok ⟨.int (f a) :: st, fr, h, w⟩ := rfl

@[simp] theorem int2_run (f : Int → Int → Int) (a b : Int) :
    int2 f (⟨.int b :: .int a :: st, fr, h, w⟩ : Machine α ω) =
      .ok ⟨.int (f a b) :: st, fr, h, w⟩ := rfl

@[simp] theorem zeroEqual_run (P : Program α ω) (v : Val α) :
    zeroEqual P (⟨v :: st, fr, h, w⟩ : Machine α ω) =
      .ok ⟨.int (boolToFlag (P.zero v)) :: st, fr, h, w⟩ := rfl

@[simp] theorem ifElse_run (P : Program α ω) (x y : List (Word α ω)) (v : Val α) :
    ifElse P x y ⟨v :: st, fr, h, w⟩ =
      if P.truthy v then seq x ⟨st, fr, h, w⟩ else seq y ⟨st, fr, h, w⟩ := rfl

@[simp] theorem index_run (frame : LoopFrame) :
    index (⟨st, frame :: fr, h, w⟩ : Machine α ω) =
      .ok ⟨.int frame.index :: st, frame :: fr, h, w⟩ := rfl

@[simp] theorem alloc_run (s : Store α) :
    alloc s (⟨st, fr, h, w⟩ : Machine α ω) = .ok ⟨.addr h.length :: st, fr, h ++ [s], w⟩ := rfl

@[simp] theorem write_run (a : Nat) (s : Store α) :
    write a s (⟨st, fr, h, w⟩ : Machine α ω) = .ok ⟨st, fr, h.set a s, w⟩ := rfl

theorem withStore_run {β : Type} {kind : Store α → Option β} {a : Nat} {xs : β}
    (ha : h[a]?.bind kind = some xs) (k : Nat → β → Word α ω) :
    withStore kind k ⟨.addr a :: st, fr, h, w⟩ = k a xs ⟨st, fr, h, w⟩ := by
  simp only [withStore, ha]

theorem nth_run {xs : List (Val α)} {i : Nat} (hi : i < xs.length) :
    nth xs (.int i) (⟨st, fr, h, w⟩ : Machine α ω) = .ok ⟨xs[i] :: st, fr, h, w⟩ := by
  simp only [nth, Int.natCast_nonneg, if_true, Int.toNat_natCast, List.getElem?_eq_getElem hi,
    push_run]

theorem nth_fault {xs : List (Val α)} {i : Int} (hi : i < 0 ∨ (xs.length : Int) ≤ i)
    (m : Machine α ω) : nth xs (.int i) m = .error .bounds := by
  simp only [nth]
  split
  · have hLength : xs.length ≤ i.toNat := by omega
    rw [List.getElem?_eq_none hLength]
  · rfl

end Steps

/-! Counted loops. -/

/-- The machine inside a loop. -/
def Machine.inLoop (m : Machine α ω) (limit i : Int) : Machine α ω :=
  { m with frames := ⟨limit, i, false⟩ :: m.frames }

/-- The machine with the bounds of a loop on its stack. -/
def Machine.withBounds (m : Machine α ω) (limit start : Int) : Machine α ω :=
  { m with stack := .int start :: .int limit :: m.stack }

section Loops
variable {body : List (Word α ω)}

theorem bumpLoop_inLoop (m : Machine α ω) (limit i : Int) :
    bumpLoop 1 (m.inLoop limit i) = .ok (decide (limit ≤ i + 1), m.inLoop limit (i + 1)) := rfl

theorem passes_eq (fuel : Nat) (m : Machine α ω) :
    passes body (fuel + 1) m = seq body m >>= fun m => bumpLoop 1 m >>= fun r =>
      if r.1 then .ok r.2 else passes body fuel r.2 := rfl

theorem passes_succ {m m' : Machine α ω} {limit i : Int}
    (hBody : seq body (m.inLoop limit i) = .ok (m'.inLoop limit i)) (fuel : Nat) :
    passes body (fuel + 1) (m.inLoop limit i) =
      if limit ≤ i + 1 then .ok (m'.inLoop limit (i + 1))
      else passes body fuel (m'.inLoop limit (i + 1)) := by
  rw [passes_eq, hBody, ok_bind, bumpLoop_inLoop, ok_bind]
  simp only [decide_eq_true_eq]

theorem doLoop_withBounds (m : Machine α ω) (limit start : Int) :
    doLoop body (m.withBounds limit start) =
      passes body (max 1 (limit - start)).toNat (m.inLoop limit start) >>= popLoopFrame := rfl

/-- The states between the passes lead from the first to the last. -/
theorem passes_run {S : Nat → Machine α ω} {lo hi : Nat}
    (hBody : ∀ i, lo ≤ i → i < hi → seq body ((S i).inLoop hi i) = .ok ((S (i + 1)).inLoop hi i)) :
    ∀ fuel i, lo ≤ i → i < hi → hi - i ≤ fuel →
      passes body fuel ((S i).inLoop hi i) = .ok ((S hi).inLoop hi hi) := by
  intro fuel
  induction fuel with
  | zero =>
    intro i _ hi' hFuel
    omega
  | succ fuel ih =>
    intro i hLo hHi hFuel
    rw [passes_succ (hBody i hLo hHi)]
    split
    case isTrue hLast =>
      obtain rfl : hi = i + 1 := by omega
      rfl
    case isFalse hMore =>
      have hNext : i + 1 < hi := by omega
      exact ih (i + 1) (by omega) hNext (by omega)

theorem doLoop_run (S : Nat → Machine α ω) (lo hi : Nat) (hLess : lo < hi)
    (hBody : ∀ i, lo ≤ i → i < hi → seq body ((S i).inLoop hi i) = .ok ((S (i + 1)).inLoop hi i)) :
    doLoop body ((S lo).withBounds hi lo) = .ok (S hi) := by
  rw [doLoop_withBounds, passes_run hBody _ lo le_rfl hLess (by omega)]
  rfl

theorem qdoLoop_run (S : Nat → Machine α ω) (lo hi : Nat) (hLe : lo ≤ hi)
    (hBody : ∀ i, lo ≤ i → i < hi → seq body ((S i).inLoop hi i) = .ok ((S (i + 1)).inLoop hi i)) :
    qdoLoop body ((S lo).withBounds hi lo) = .ok (S hi) := by
  rcases hLe.eq_or_lt with rfl | hLess
  · exact if_pos rfl
  · have hNe : (hi : Int) ≠ lo := by omega
    exact (if_neg hNe).trans (doLoop_run S lo hi hLess hBody)

/-- A pass that faults ends the run there. -/
theorem passes_fault {S : Nat → Machine α ω} {lo hi k : Nat} {e : Fault} (hk : k < hi)
    (hBody : ∀ i, lo ≤ i → i < k → seq body ((S i).inLoop hi i) = .ok ((S (i + 1)).inLoop hi i))
    (hFault : seq body ((S k).inLoop hi k) = .error e) :
    ∀ fuel i, lo ≤ i → i ≤ k → hi - i ≤ fuel →
      passes body fuel ((S i).inLoop hi i) = .error e := by
  intro fuel
  induction fuel with
  | zero =>
    intro i _ hi' hFuel
    omega
  | succ fuel ih =>
    intro i hLo hi' hFuel
    rcases hi'.eq_or_lt with rfl | hLess
    · rw [passes_eq, hFault, error_bind]
    · rw [passes_succ (hBody i hLo hLess), if_neg (by omega)]
      exact ih (i + 1) (by omega) hLess (by omega)

theorem qdoLoop_of_ne {m : Machine α ω} {limit start : Int} (h : limit ≠ start) :
    qdoLoop body (m.withBounds limit start) = doLoop body (m.withBounds limit start) := if_neg h

/-- A walk over a list of items, one pass an item: the states are those after each prefix. -/
theorem walk_run {β : Type} {items : List β} {S : List β → Machine α ω} {lo hi : Nat}
    (hBounds : lo + items.length = hi)
    (hBody : ∀ pre x, pre ++ [x] <+: items →
      seq body ((S pre).inLoop hi (lo + pre.length : Nat)) =
        .ok ((S (pre ++ [x])).inLoop hi (lo + pre.length : Nat))) :
    qdoLoop body ((S []).withBounds hi lo) = .ok (S items) := by
  have hRun := qdoLoop_run (fun i => S (items.take (i - lo))) lo hi (by omega)
    fun i hLo hHi => by
      have hi : i - lo < items.length := by omega
      have hNext : i + 1 - lo = i - lo + 1 := by omega
      have hTake : items.take (i - lo + 1) = items.take (i - lo) ++ [items[i - lo]] :=
        List.take_succ_eq_append_getElem hi
      have hPass := hBody (items.take (i - lo)) items[i - lo] (hTake ▸ List.take_prefix _ _)
      have hIndex : lo + (items.take (i - lo)).length = i := by
        rw [List.length_take]
        omega
      rw [hIndex, ← hTake, ← hNext] at hPass
      exact hPass
  have hAll : hi - lo = items.length := by omega
  simp only [Nat.sub_self, List.take_zero, hAll, List.take_length] at hRun
  exact hRun

theorem qdoLoop_fault (S : Nat → Machine α ω) (lo hi k : Nat) {e : Fault} (hLo : lo ≤ k) (hk : k < hi)
    (hBody : ∀ i, lo ≤ i → i < k → seq body ((S i).inLoop hi i) = .ok ((S (i + 1)).inLoop hi i))
    (hFault : seq body ((S k).inLoop hi k) = .error e) :
    qdoLoop body ((S lo).withBounds hi lo) = .error e := by
  have hNe : (hi : Int) ≠ lo := by omega
  refine (if_neg hNe).trans ?_
  rw [doLoop_withBounds, passes_fault hk hBody hFault _ lo le_rfl hLo (by omega)]
  rfl

/-- A walk whose items are visited up to one where the pass faults. -/
theorem walk_fault {β : Type} {items before : List β} {item : β} {S : List β → Machine α ω}
    {lo hi : Nat} {e : Fault} (hBounds : lo + items.length = hi) (hItem : before ++ [item] <+: items)
    (hBody : ∀ pre x, pre ++ [x] <+: before →
      seq body ((S pre).inLoop hi (lo + pre.length : Nat)) =
        .ok ((S (pre ++ [x])).inLoop hi (lo + pre.length : Nat)))
    (hFault : seq body ((S before).inLoop hi (lo + before.length : Nat)) = .error e) :
    qdoLoop body ((S []).withBounds hi lo) = .error e := by
  have hLength := length_lt_of_snoc hItem
  have hBack : lo + before.length - lo = before.length := by omega
  have hRun := qdoLoop_fault (fun i => S (before.take (i - lo))) lo hi (lo + before.length) (e := e)
    (by omega) (by omega)
    (fun i hLo hHi => by
      have hi : i - lo < before.length := by omega
      have hNext : i + 1 - lo = i - lo + 1 := by omega
      have hTake : before.take (i - lo + 1) = before.take (i - lo) ++ [before[i - lo]] :=
        List.take_succ_eq_append_getElem hi
      have hPass := hBody (before.take (i - lo)) before[i - lo] (hTake ▸ List.take_prefix _ _)
      have hIndex : lo + (before.take (i - lo)).length = i := by
        rw [List.length_take]
        omega
      rw [hIndex, ← hTake, ← hNext] at hPass
      exact hPass)
    (by simpa only [hBack, List.take_length] using hFault)
  simpa only [Nat.sub_self, List.take_zero] using hRun

/-- A walk and what follows it. -/
theorem walk_then {β : Type} (items : List β) {rest : List (Word α ω)} {m : Machine α ω}
    {r : Except Fault (Machine α ω)} (S : List β → Machine α ω) (lo hi : Nat)
    (hStart : m = (S []).withBounds hi lo) (hBounds : lo + items.length = hi)
    (hBody : ∀ pre x, pre ++ [x] <+: items →
      seq body ((S pre).inLoop hi (lo + pre.length : Nat)) =
        .ok ((S (pre ++ [x])).inLoop hi (lo + pre.length : Nat)))
    (hRest : seq rest (S items) = r) : (qdoLoop body m >>= seq rest) = r := by
  rw [hStart, walk_run hBounds hBody, ok_bind, hRest]

theorem walk_fault_then {β : Type} {items before : List β} {item : β} {m : Machine α ω}
    {rest : List (Word α ω)} {e : Fault} (S : List β → Machine α ω) (lo hi : Nat)
    (hStart : m = (S []).withBounds hi lo) (hBounds : lo + items.length = hi)
    (hItem : before ++ [item] <+: items)
    (hBody : ∀ pre x, pre ++ [x] <+: before →
      seq body ((S pre).inLoop hi (lo + pre.length : Nat)) =
        .ok ((S (pre ++ [x])).inLoop hi (lo + pre.length : Nat)))
    (hFault : seq body ((S before).inLoop hi (lo + before.length : Nat)) = .error e) :
    (qdoLoop body m >>= seq rest) = .error e := by
  rw [hStart, walk_fault hBounds hItem hBody hFault, error_bind]

/-- Under DO the walk is the same as soon as there is an item. -/
theorem do_walk_then {β : Type} {items : List β} {rest : List (Word α ω)} {m : Machine α ω}
    {r : Except Fault (Machine α ω)} (hItems : items ≠ []) (S : List β → Machine α ω) (lo hi : Nat)
    (hStart : m = (S []).withBounds hi lo) (hBounds : lo + items.length = hi)
    (hBody : ∀ pre x, pre ++ [x] <+: items →
      seq body ((S pre).inLoop hi (lo + pre.length : Nat)) =
        .ok ((S (pre ++ [x])).inLoop hi (lo + pre.length : Nat)))
    (hRest : seq rest (S items) = r) : (doLoop body m >>= seq rest) = r := by
  have hPos := List.length_pos_iff.2 hItems
  have hNe : (hi : Int) ≠ lo := by omega
  have hLoop : qdoLoop body m = doLoop body m := by
    rw [hStart]
    exact qdoLoop_of_ne hNe
  rw [← hLoop]
  exact walk_then items S lo hi hStart hBounds hBody hRest

/-- The first pass is made whatever the bounds are. -/
theorem doLoop_fault {m : Machine α ω} {limit start : Int} {e : Fault}
    (hFault : seq body (m.inLoop limit start) = .error e) :
    doLoop body (m.withBounds limit start) = .error e := by
  obtain ⟨fuel, hFuel⟩ : ∃ fuel, (max 1 (limit - start)).toNat = fuel + 1 :=
    ⟨(max 1 (limit - start)).toNat - 1, by omega⟩
  rw [doLoop_withBounds, hFuel, passes_eq, hFault]
  rfl

theorem do_fault_then {m : Machine α ω} (m' : Machine α ω) (limit start : Int) {e : Fault}
    {rest : List (Word α ω)} (hStart : m = m'.withBounds limit start)
    (hFault : seq body (m'.inLoop limit start) = .error e) :
    (doLoop body m >>= seq rest) = .error e := by
  rw [hStart, doLoop_fault hFault, error_bind]

theorem qdo_fault_then {m : Machine α ω} (m' : Machine α ω) (limit start : Int) {e : Fault}
    {rest : List (Word α ω)} (hStart : m = m'.withBounds limit start) (hNe : limit ≠ start)
    (hFault : seq body (m'.inLoop limit start) = .error e) :
    (qdoLoop body m >>= seq rest) = .error e := by
  rw [hStart, qdoLoop_of_ne hNe, doLoop_fault hFault, error_bind]

/-- Where the limit is not above the next index the loop ends with its first pass. -/
theorem doLoop_once (m m' : Machine α ω) (limit start : Int) (hLimit : limit ≤ start + 1)
    (hBody : seq body (m.inLoop limit start) = .ok (m'.inLoop limit start)) :
    doLoop body (m.withBounds limit start) = .ok m' := by
  have hFuel : (max 1 (limit - start)).toNat = 0 + 1 := by omega
  rw [doLoop_withBounds, hFuel, passes_succ hBody, if_pos hLimit]
  rfl

end Loops

/-! Collections and their elements. -/

/-- The collection has these elements. -/
def Holds (h : List (Store α)) : Val α → List (Val α) → Prop
  | .grid width height a, xs => h[a]? = some (.cells xs) ∧ (xs.length : Int) = width * height
  | .darray a, xs => h[a]? = some (.rawvec xs)
  | .string chars, xs => Holds h chars xs
  | _, _ => False

theorem Holds.append {h : List (Store α)} {c : Val α} {xs : List (Val α)} (hc : Holds h c xs)
    (news : List (Store α)) : Holds (h ++ news) c xs := by
  have hMore : ∀ {a : Nat} {s : Store α}, h[a]? = some s → (h ++ news)[a]? = some s := by
    intro a s ha
    obtain ⟨hLess, -⟩ := List.getElem?_eq_some_iff.1 ha
    rwa [List.getElem?_append_left hLess]
  induction c with
  | grid width height a => exact ⟨hMore hc.1, hc.2⟩
  | darray a => exact hMore hc
  | string chars ih => exact ih hc
  | _ => exact hc.elim

section Protocol
variable {h : List (Store α)} {c : Val α} {xs : List (Val α)} (st : List (Val α))
  (fr : List LoopFrame) (w : ω)

theorem cells?_of {a : Nat} (ha : h[a]? = some (.cells xs)) : h[a]?.bind Store.cells? = some xs := by
  rw [ha]
  rfl

theorem rawvec?_of {a : Nat} (ha : h[a]? = some (.rawvec xs)) :
    h[a]?.bind Store.rawvec? = some xs := by
  rw [ha]
  rfl

theorem hashset?_of {a : Nat} (ha : h[a]? = some (.hashset xs)) :
    h[a]?.bind Store.hashset? = some xs := by
  rw [ha]
  rfl

theorem hash?_of {a : Nat} {entries : List (Val α × Val α)} (ha : h[a]? = some (.hash entries)) :
    h[a]?.bind Store.hash? = some entries := by
  rw [ha]
  rfl

theorem size_run (hc : Holds h c xs) :
    size (⟨c :: st, fr, h, w⟩ : Machine α ω) = .ok ⟨.int xs.length :: st, fr, h, w⟩ := by
  show sizeMethod c ⟨c :: st, fr, h, w⟩ = _
  induction c with
  | grid width height a =>
    rw [hc.2]
    rfl
  | darray a =>
    show withStore Store.rawvec? (fun _ xs => lit xs.length) ⟨.addr a :: st, fr, h, w⟩ >>= seq [] = _
    rw [withStore_run st fr h w (rawvec?_of hc)]
    rfl
  | string chars ih =>
    show sizeMethod chars ⟨chars :: st, fr, h, w⟩ >>= seq [] = _
    rw [ih hc]
    rfl
  | _ => exact hc.elim

/-- Reading an element is reading the list, faults included. -/
theorem elementAt_nth (hc : Holds h c xs) (i : Val α) :
    elementAt (⟨c :: i :: st, fr, h, w⟩ : Machine α ω) = nth xs i ⟨st, fr, h, w⟩ >>= seq [] := by
  show atMethod c ⟨c :: i :: st, fr, h, w⟩ = _
  induction c with
  | grid width height a =>
    show withStore Store.cells? (fun _ xs => nth xs i) ⟨.addr a :: st, fr, h, w⟩ >>= seq [] = _
    rw [withStore_run st fr h w (cells?_of hc.1)]
  | darray a =>
    show withStore Store.rawvec? (fun _ xs => bind1 (nth xs)) ⟨.addr a :: i :: st, fr, h, w⟩ >>=
      seq [] = _
    rw [withStore_run _ fr h w (rawvec?_of hc), bind1_run]
  | string chars ih =>
    show atMethod chars ⟨chars :: i :: st, fr, h, w⟩ >>= seq [] = _
    rw [ih hc]
    cases nth xs i (⟨st, fr, h, w⟩ : Machine α ω) <;> rfl
  | _ => exact hc.elim

theorem elementAt_run (hc : Holds h c xs) {i : Nat} (hi : i < xs.length) :
    elementAt (⟨c :: .int i :: st, fr, h, w⟩ : Machine α ω) = .ok ⟨xs[i] :: st, fr, h, w⟩ := by
  rw [elementAt_nth st fr w hc, nth_run st fr h w hi]
  rfl

theorem elementAt_drop (hc : Holds h c xs) (lo : Nat) {pre : List (Val α)} {x : Val α}
    (hp : pre ++ [x] <+: xs.drop lo) :
    elementAt (⟨c :: .int (lo + pre.length : Nat) :: st, fr, h, w⟩ : Machine α ω) =
      .ok ⟨x :: st, fr, h, w⟩ := by
  have hItem := getElem?_of_snoc hp
  rw [List.getElem?_drop] at hItem
  obtain ⟨hLength, hx⟩ := List.getElem?_eq_some_iff.1 hItem
  rw [elementAt_run st fr w hc hLength, hx]

theorem elementAt_item (hc : Holds h c xs) {pre : List (Val α)} {x : Val α}
    (hp : pre ++ [x] <+: xs) :
    elementAt (⟨c :: .int pre.length :: st, fr, h, w⟩ : Machine α ω) = .ok ⟨x :: st, fr, h, w⟩ := by
  have hAt := elementAt_drop st fr w hc 0 hp
  rwa [Nat.zero_add] at hAt

theorem elementAt_fault (hc : Holds h c xs) {i : Int} (hi : i < 0 ∨ (xs.length : Int) ≤ i) :
    elementAt (⟨c :: .int i :: st, fr, h, w⟩ : Machine α ω) = .error .bounds := by
  rw [elementAt_nth st fr w hc, nth_fault hi]
  rfl

theorem elementAt_empty (hc : Holds h c []) (i : Nat) :
    elementAt (⟨c :: .int i :: st, fr, h, w⟩ : Machine α ω) = .error .bounds :=
  elementAt_fault st fr w hc (Or.inr (Int.natCast_nonneg i))

end Protocol

/-! The collections that a word makes. -/

/-- The collection of the class of `c` over a new store. -/
def like (a : Nat) : Val α → Val α
  | .grid width height _ => .grid width height a
  | .string _ => .string (.darray a)
  | _ => .darray a

/-- The new store for `n` elements when the first of them are written. -/
def filling (n : Nat) (ys : List (Val α)) : Val α → Store α
  | .grid _ _ _ => .cells (ys ++ List.replicate (n - ys.length) (.int 0))
  | _ => .rawvec ys

section Made
variable {h : List (Store α)} {c : Val α} {xs : List (Val α)} (st : List (Val α))
  (fr : List LoopFrame) (w : ω)

theorem getElem?_here {β : Type} (front rest : List β) (s : β) :
    (front ++ s :: rest)[front.length]? = some s := by
  rw [List.getElem?_append_right le_rfl, Nat.sub_self]
  rfl

theorem set_here (front rest : List (Store α)) (s t : Store α) :
    (front ++ s :: rest).set front.length t = front ++ t :: rest := by
  rw [List.set_append_right _ _ le_rfl, Nat.sub_self]
  rfl

theorem newLike_run (hc : Holds h c xs) :
    newLike (⟨c :: st, fr, h, w⟩ : Machine α ω) =
      .ok ⟨like h.length c :: st, fr, h ++ [filling xs.length [] c], w⟩ := by
  show newLikeMethod c ⟨c :: st, fr, h, w⟩ = _
  cases c with
  | grid width height a =>
    have hSize : 0 ≤ width * height := hc.2 ▸ Int.natCast_nonneg _
    have hLength : (width * height).toNat = xs.length := by rw [← hc.2, Int.toNat_natCast]
    show newCells ⟨.int (width * height) :: .int height :: .int width :: st, fr, h, w⟩ >>=
      seq [makeGrid] = _
    simp only [newCells, bind1_run, if_pos hSize, hLength]
    rfl
  | darray a => rfl
  | string chars => rfl
  | _ => exact hc.elim

theorem set_filled (ys : List (Val α)) {n : Nat} (hn : ys.length < n) (y : Val α) :
    (ys ++ List.replicate (n - ys.length) (Val.int 0)).set ys.length y =
      ys ++ [y] ++ List.replicate (n - (ys ++ [y]).length) (Val.int 0) := by
  obtain ⟨k, hk⟩ : ∃ k, n - ys.length = k + 1 := ⟨n - ys.length - 1, by omega⟩
  have hRest : n - (ys ++ [y]).length = k := by
    rw [List.length_append, List.length_singleton]
    omega
  rw [hk, hRest, List.replicate_succ, List.set_append_right _ _ le_rfl, Nat.sub_self, List.set_cons_zero,
    List.append_assoc]
  rfl

theorem putAt_run (P : Program α ω) (hc : Holds h c xs) {ys : List (Val α)}
    (hys : ys.length < xs.length) (y : Val α) :
    putAt P (⟨like h.length c :: .int ys.length :: y :: st, fr, h ++ [filling xs.length ys c], w⟩ :
        Machine α ω) =
      .ok ⟨st, fr, h ++ [filling xs.length (ys ++ [y]) c], w⟩ := by
  have hGrow : rawvecSet P (⟨.addr h.length :: .int ys.length :: y :: st, fr, h ++ [.rawvec ys], w⟩ :
      Machine α ω) = .ok ⟨st, fr, h ++ [.rawvec (ys ++ [y])], w⟩ := by
    have hOne : ys.length + 1 - ys.length = 1 := by omega
    rw [rawvecSet, withStore_run _ _ _ _ (rawvec?_of (getElem?_here h [] _)), bind2_run]
    simp only [Int.natCast_nonneg, if_true, Int.toNat_natCast, hOne, List.replicate_one, write_run,
      List.set_append_right _ _ le_rfl, Nat.sub_self, List.set_cons_zero]
  cases c with
  | grid width height a =>
    have hBounds : (0 : Int) ≤ ys.length ∧ (ys.length : Int) <
        (ys ++ List.replicate (xs.length - ys.length) (Val.int 0 : Val α)).length := by
      rw [List.length_append, List.length_replicate]
      omega
    show cellsSet ⟨.int ys.length :: .addr h.length :: y :: st, fr, h ++ [filling xs.length ys _], w⟩ >>=
      seq [] = _
    rw [cellsSet, bind1_run]
    simp only [filling, withStore_run _ _ _ _ (cells?_of (getElem?_here h [] _)), bind1_run, if_pos hBounds,
      Int.toNat_natCast, write_run, set_here, set_filled ys hys]
    rfl
  | darray a =>
    show rawvecSet P ⟨.addr h.length :: .int ys.length :: y :: st, fr, h ++ [.rawvec ys], w⟩ >>=
      seq [] = _
    rw [hGrow]
    rfl
  | string chars =>
    show (rawvecSet P ⟨.addr h.length :: .int ys.length :: y :: st, fr, h ++ [.rawvec ys], w⟩ >>=
      seq []) >>= seq [] = _
    rw [hGrow]
    rfl
  | _ => exact hc.elim

theorem putAt_item (P : Program α ω) (hc : Holds h c xs) {ys : List (Val α)}
    {i : Nat} (hys : ys.length = i) (hi : i < xs.length) (y : Val α) :
    putAt P (⟨like h.length c :: .int i :: y :: st, fr, h ++ [filling xs.length ys c], w⟩ :
        Machine α ω) =
      .ok ⟨st, fr, h ++ [filling xs.length (ys ++ [y]) c], w⟩ := by
  subst hys
  exact putAt_run st fr w P hc hi y

theorem Holds.like (hc : Holds h c xs) {ys : List (Val α)} (hys : ys.length = xs.length) :
    Holds (h ++ [filling xs.length ys c]) (like h.length c) ys := by
  cases c with
  | grid width height a =>
    have hNone : xs.length - ys.length = 0 := by omega
    refine ⟨?_, hys ▸ hc.2⟩
    rw [getElem?_here, filling, hNone, List.replicate_zero, List.append_nil]
  | darray a => exact getElem?_here h [] _
  | string chars => exact getElem?_here h [] _
  | _ => exact hc.elim

@[simp] theorem newDarray_run :
    newDarray (⟨st, fr, h, w⟩ : Machine α ω) =
      .ok ⟨.darray h.length :: st, fr, h ++ [.rawvec []], w⟩ := rfl

theorem dPush_run {a : Nat} {ys : List (Val α)} (ha : h[a]? = some (.rawvec ys)) (y : Val α) :
    dPush (⟨.darray a :: y :: st, fr, h, w⟩ : Machine α ω) =
      .ok ⟨st, fr, h.set a (.rawvec (ys ++ [y])), w⟩ := by
  show rawvecPush ⟨.addr a :: y :: st, fr, h, w⟩ >>= seq [] = _
  rw [rawvecPush, withStore_run _ _ _ _ (rawvec?_of ha)]
  rfl

theorem dPush_here (ys : List (Val α)) (rest : List (Store α)) (y : Val α) :
    dPush (⟨.darray h.length :: y :: st, fr, h ++ .rawvec ys :: rest, w⟩ : Machine α ω) =
      .ok ⟨st, fr, h ++ .rawvec (ys ++ [y]) :: rest, w⟩ := by
  rw [dPush_run _ _ _ (getElem?_here h rest _), set_here]

end Made
end FactorForth.Protocols
