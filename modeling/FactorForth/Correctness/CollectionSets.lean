import FactorForth.Correctness.CollectionSearch

/-! Sets and dicts: membership and lookup up to Factor's `=`, and what the words over them make. -/

namespace FactorForth.Correctness
open FactorForth.Library FactorForth.Protocols
open FactorForth.Semantics (LoopFrame)
variable {α ω : Type}

/-! Membership and lookup. -/

section Same
variable (P : Program α ω) {x y z : Val α}

theorem same_left (h : P.same x y = true) (z : Val α) : P.same x z = P.same y z :=
  Bool.eq_iff_iff.2 ⟨fun hx => P.same_equiv.trans (P.same_equiv.symm h) hx,
    fun hy => P.same_equiv.trans h hy⟩

theorem among_same (h : P.same x y = true) (xs : List (Val α)) : P.among x xs = P.among y xs :=
  congrArg xs.any (funext (same_left P h))

theorem among_iff {xs : List (Val α)} : P.among x xs = true ↔ ∃ y ∈ xs, P.same x y = true :=
  List.any_eq_true

theorem among_append (xs ys : List (Val α)) :
    P.among x (xs ++ ys) = (P.among x xs || P.among x ys) := List.any_append

theorem among_adjoin (x y : Val α) (xs : List (Val α)) :
    P.among y (P.adjoin x xs) = (P.among y xs || P.same y x) := by
  unfold Program.adjoin
  split
  case isTrue hIn =>
    cases hSame : P.same y x with
    | false => rw [Bool.or_false]
    | true => rw [among_same P hSame, hIn, Bool.or_true]
  case isFalse =>
    rw [among_append, Program.among, Program.among, List.any_cons, List.any_nil, Bool.or_false]

/-- The elements of `xs` are added one by one. -/
def adjoinAll (acc xs : List (Val α)) : List (Val α) := xs.foldl (fun acc x => P.adjoin x acc) acc

theorem adjoinAll_snoc (acc xs : List (Val α)) (x : Val α) :
    adjoinAll P acc (xs ++ [x]) = P.adjoin x (adjoinAll P acc xs) := by
  rw [adjoinAll, List.foldl_append]
  rfl

theorem among_adjoinAll (acc xs : List (Val α)) :
    P.among y (adjoinAll P acc xs) = (P.among y acc || P.among y xs) := by
  induction xs using List.reverseRecOn with
  | nil => rw [adjoinAll, List.foldl_nil, Program.among, Program.among, List.any_nil, Bool.or_false]
  | append_singleton xs x ih =>
    rw [adjoinAll_snoc, among_adjoin, ih, among_append, Bool.or_assoc]
    congr 2
    rw [Program.among, List.any_cons, List.any_nil, Bool.or_false]

theorem among_order (xs : List (Val α)) : P.among y (P.order xs) = P.among y xs := by
  rw [Bool.eq_iff_iff, among_iff, among_iff]
  exact exists_congr fun z => and_congr_left fun _ => (P.order_perm xs).mem_iff

/-- A test that does not tell equal values apart picks out the members that pass it. -/
theorem among_filter {p : Val α → Bool} (hp : ∀ x y, P.same x y = true → p x = p y)
    (xs : List (Val α)) : P.among y (xs.filter p) = (P.among y xs && p y) := by
  rw [Bool.eq_iff_iff, Bool.and_eq_true, among_iff, among_iff]
  constructor
  · rintro ⟨z, hz, hSame⟩
    obtain ⟨hMem, hPass⟩ := List.mem_filter.1 hz
    exact ⟨⟨z, hMem, hSame⟩, (hp y z hSame).trans hPass⟩
  · rintro ⟨⟨z, hMem, hSame⟩, hPass⟩
    exact ⟨z, List.mem_filter.2 ⟨hMem, (hp y z hSame).symm.trans hPass⟩, hSame⟩

variable {k k' v : Val α}

theorem under_same (h : P.same k k' = true) (entries : List (Val α × Val α)) :
    P.under k entries = P.under k' entries := by
  rw [Program.under, Program.under, funext fun e : Val α × Val α => same_left P h e.1]

theorem isSome_under (entries : List (Val α × Val α)) :
    (P.under k entries).isSome = P.among k (entries.map (·.1)) := by
  rw [Program.under, Option.isSome_map, List.isSome_find?, Program.among, List.any_map]
  rfl

theorem under_setAt (v k k' : Val α) (entries : List (Val α × Val α)) :
    P.under k' (P.setAt v k entries) = if P.same k' k then some v else P.under k' entries := by
  rw [Program.under, Program.setAt, List.find?_append]
  split
  case isTrue hSame =>
    have hNone : (entries.filter fun e => !P.same k e.1).find? (fun e => P.same k' e.1) = none := by
      refine List.find?_eq_none.2 fun e he hHit => ?_
      have hMiss := (List.mem_filter.1 he).2
      rw [← same_left P hSame, hHit] at hMiss
      cases hMiss
    rw [hNone, Option.none_or, List.find?_cons, hSame]
    rfl
  case isFalse hDiffer =>
    have hKeep : ∀ e : Val α × Val α,
        decide ((!P.same k e.1) = true ∧ P.same k' e.1 = true) = P.same k' e.1 := by
      intro e
      rw [Bool.eq_iff_iff, decide_eq_true_eq]
      refine and_iff_right_of_imp fun hHit => ?_
      rw [Bool.not_eq_true']
      refine Bool.eq_false_iff.2 fun hSame => hDiffer ?_
      exact P.same_equiv.trans hHit (P.same_equiv.symm hSame)
    rw [List.find?_cons, Bool.eq_false_iff.2 hDiffer, List.find?_nil, Option.or_none,
      List.find?_filter, Program.under, funext hKeep]

/-- What `dict-at` leaves under the flag. -/
def valueOf (k : Val α) (entries : List (Val α × Val α)) : Val α :=
  (P.under k entries).getD (.other P.f)

/-- The entries of `entries` under the keys `ks` are set one by one. -/
def setAll (entries acc : List (Val α × Val α)) (ks : List (Val α)) : List (Val α × Val α) :=
  ks.foldl (fun acc k => P.setAt (valueOf P k entries) k acc) acc

theorem setAll_snoc (entries acc : List (Val α × Val α)) (ks : List (Val α)) (k : Val α) :
    setAll P entries acc (ks ++ [k]) = P.setAt (valueOf P k entries) k (setAll P entries acc ks) := by
  rw [setAll, List.foldl_append]
  rfl

theorem under_setAll (entries acc : List (Val α × Val α)) (ks : List (Val α)) :
    P.under k (setAll P entries acc ks) =
      if P.among k ks then some (valueOf P k entries) else P.under k acc := by
  induction ks using List.reverseRecOn with
  | nil => rfl
  | append_singleton ks k' ih =>
    rw [setAll_snoc, under_setAt, ih, among_append]
    have hLast : P.among k [k'] = P.same k k' := by
      rw [Program.among, List.any_cons, List.any_nil, Bool.or_false]
    rw [hLast]
    cases hSame : P.same k k' with
    | true => rw [Bool.or_true, if_pos rfl, if_pos rfl, valueOf, valueOf, under_same P hSame]
    | false => rw [Bool.or_false, if_neg Bool.false_ne_true]

/-- All entries set over `acc`: they win where both have a key. -/
theorem under_setAll_keys (entries acc : List (Val α × Val α)) :
    P.under k (setAll P entries acc (P.order (entries.map (·.1)))) =
      (P.under k entries).or (P.under k acc) := by
  rw [under_setAll, among_order, ← isSome_under, valueOf]
  cases P.under k entries with
  | none => rfl
  | some v => rfl

end Same

/-! The words. -/

section Runs
variable (P : Program α ω) {h : List (Store α)} {a b : Nat} {as bs : List (Val α)}
  (st : List (Val α)) (fr : List LoopFrame) (w : ω)

theorem getElem?_old {s : Store α} (ha : h[a]? = some s) (news : List (Store α)) :
    (h ++ news)[a]? = some s := by
  obtain ⟨hLess, -⟩ := List.getElem?_eq_some_iff.1 ha
  rwa [List.getElem?_append_left hLess]

theorem newSet_run :
    newSet (⟨st, fr, h, w⟩ : Machine α ω) =
      .ok ⟨.set h.length :: st, fr, h ++ [.hashset []], w⟩ := rfl

/-- A set's members, put in a darray behind what is being made. -/
theorem setMembers_run (ha : h[a]? = some (.hashset as)) (s : Store α) (front : List (Store α)) :
    setMembers P ⟨.set a :: st, fr, h ++ s :: front, w⟩ =
      .ok ⟨.darray (h.length + 1 + front.length) :: st, fr,
        h ++ s :: (front ++ [.rawvec (P.order as)]), w⟩ := by
  have hLength : (h ++ s :: front).length = h.length + 1 + front.length := by
    rw [List.length_append, List.length_cons]
    omega
  show hsMembers P ⟨.addr a :: st, fr, h ++ s :: front, w⟩ >>= seq [makeDarray] = _
  rw [hsMembers, withStore_run _ _ _ _ (hashset?_of (getElem?_old ha _)), alloc_run, hLength,
    List.append_assoc]
  rfl

theorem setHas?_run (ha : h[a]? = some (.hashset as)) (x : Val α) :
    setHas? P ⟨.set a :: x :: st, fr, h, w⟩ =
      .ok ⟨.int (boolToFlag (P.among x as)) :: st, fr, h, w⟩ := by
  show hsIn? P ⟨.addr a :: x :: st, fr, h, w⟩ >>= seq [] = _
  rw [hsIn?, withStore_run _ _ _ _ (hashset?_of ha)]
  rfl

theorem setAdd_here (xs : List (Val α)) (rest : List (Store α)) (x : Val α) :
    setAdd P ⟨.set h.length :: x :: st, fr, h ++ .hashset xs :: rest, w⟩ =
      .ok ⟨st, fr, h ++ .hashset (P.adjoin x xs) :: rest, w⟩ := by
  show hsAdd P ⟨.addr h.length :: x :: st, fr, h ++ .hashset xs :: rest, w⟩ >>= seq [] = _
  rw [hsAdd, withStore_run _ _ _ _ (hashset?_of (getElem?_here h rest _)), bind1_run, write_run, set_here]
  rfl

/-- The members of a set in a darray behind the set that is being made. -/
theorem holds_behind (s : Store α) (front : List (Store α)) (xs : List (Val α)) :
    Holds (h ++ s :: (front ++ [.rawvec xs])) (.darray (h.length + 1 + front.length)) xs := by
  have hHere := getElem?_here (h ++ s :: front) [] (.rawvec xs)
  have hLength : (h ++ s :: front).length = h.length + 1 + front.length := by
    rw [List.length_append, List.length_cons]
    omega
  rw [hLength, List.append_assoc, List.cons_append] at hHere
  exact hHere

/-- Walk over the members, adding those that pass a test. -/
theorem gather_then {front : List (Store α)} {xs acc : List (Val α)} {p : Val α → Bool}
    {body : List (Word α ω)} {rest : List (Word α ω)} {r : Except Fault (Machine α ω)}
    (hBody : ∀ x acc fr, seq body (⟨x :: st, fr, h ++ .hashset acc :: (front ++ [.rawvec xs]), w⟩ :
        Machine α ω) =
      .ok ⟨st, fr, h ++ .hashset (if p x then P.adjoin x acc else acc) :: (front ++ [.rawvec xs]), w⟩)
    (hRest : seq rest ⟨st, fr, h ++ .hashset (adjoinAll P acc (xs.filter p)) ::
      (front ++ [.rawvec xs]), w⟩ = r) :
    (qdoLoop (index :: push (.darray (h.length + 1 + front.length)) :: elementAt :: body)
      ⟨.int 0 :: .int xs.length :: st, fr, h ++ .hashset acc :: (front ++ [.rawvec xs]), w⟩ >>=
      seq rest) = r := by
  refine walk_then xs (fun pre => ⟨st, fr, h ++ .hashset (adjoinAll P acc (pre.filter p)) ::
    (front ++ [.rawvec xs]), w⟩) 0 xs.length rfl (Nat.zero_add _) (fun pre x hp => ?_) hRest
  simp only [Machine.inLoop, Nat.zero_add, seq_cons, index_run, push_run, ok_bind,
    elementAt_item _ _ _ (holds_behind _ front xs) hp, hBody, List.filter_append]
  cases hx : p x with
  | true => rw [if_pos rfl, List.filter_cons_of_pos hx, List.filter_nil, adjoinAll_snoc]
  | false =>
    rw [if_neg Bool.false_ne_true, List.filter_cons_of_neg (Bool.eq_false_iff.1 hx), List.filter_nil,
      List.append_nil]

theorem setUnion_run (ha : h[a]? = some (.hashset as)) (hb : h[b]? = some (.hashset bs)) :
    ∃ news, setUnion P ⟨.set b :: .set a :: st, fr, h, w⟩ =
      .ok ⟨.set h.length :: st, fr,
        h ++ .hashset (adjoinAll P (adjoinAll P [] (P.order bs)) (P.order as)) :: news, w⟩ := by
  refine ⟨([] ++ [.rawvec (P.order bs)]) ++ [.rawvec (P.order as)], ?_⟩
  have hAdd : ∀ (news : List (Store α)) x acc fr', seq [push (.set h.length), setAdd P]
      (⟨x :: st, fr', h ++ .hashset acc :: news, w⟩ : Machine α ω) =
        .ok ⟨st, fr', h ++ .hashset (if (fun _ : Val α => true) x then P.adjoin x acc else acc) :: news,
          w⟩ := by
    intro news x acc fr'
    simp only [seq_cons, push_run, ok_bind, setAdd_here, seq_nil, if_true]
  have hFilter : ∀ xs : List (Val α), xs.filter (fun _ => true) = xs := fun xs =>
    List.filter_eq_self.2 fun _ _ => rfl
  simp only [setUnion, bind2_run, seq_cons, newSet_run, push_run, ok_bind, bind1_run,
    setMembers_run P _ _ _ hb, size_run _ _ _ (holds_behind _ [] _), lit_run, bind_seq_nil]
  refine gather_then P st fr w (fun x acc fr' => hAdd _ x acc fr') ?_
  simp only [seq_cons, push_run, ok_bind, bind1_run, setMembers_run P _ _ _ ha,
    size_run _ _ _ (holds_behind _ _ _), lit_run, bind_seq_nil]
  refine gather_then P st fr w (fun x acc fr' => hAdd _ x acc fr') ?_
  rw [hFilter, hFilter]
  rfl

theorem setIntersect_run (ha : h[a]? = some (.hashset as)) (hb : h[b]? = some (.hashset bs)) :
    ∃ news, setIntersect P ⟨.set b :: .set a :: st, fr, h, w⟩ =
      .ok ⟨.set h.length :: st, fr,
        h ++ .hashset (adjoinAll P [] ((P.order as).filter fun x => P.among x bs)) :: news, w⟩ := by
  refine ⟨[] ++ [.rawvec (P.order as)], ?_⟩
  simp only [setIntersect, bind2_run, seq_cons, newSet_run, push_run, ok_bind, bind1_run,
    setMembers_run P _ _ _ ha, size_run _ _ _ (holds_behind _ [] _), lit_run, bind_seq_nil]
  refine gather_then (p := fun x => P.among x bs) P st fr w (fun x acc fr' => ?_) rfl
  simp only [seq_cons, seq_nil, dup_run, push_run, ok_bind, setHas?_run P _ _ _ (getElem?_old hb _),
    ifElse_run, truthy_flag, setAdd_here, drop_run]
  split <;> rfl

theorem setDifference_run (ha : h[a]? = some (.hashset as)) (hb : h[b]? = some (.hashset bs)) :
    ∃ news, setDifference P ⟨.set b :: .set a :: st, fr, h, w⟩ =
      .ok ⟨.set h.length :: st, fr,
        h ++ .hashset (adjoinAll P [] ((P.order as).filter fun x => !P.among x bs)) :: news, w⟩ := by
  refine ⟨[] ++ [.rawvec (P.order as)], ?_⟩
  simp only [setDifference, bind2_run, seq_cons, newSet_run, push_run, ok_bind, bind1_run,
    setMembers_run P _ _ _ ha, size_run _ _ _ (holds_behind _ [] _), lit_run, bind_seq_nil]
  refine gather_then (p := fun x => !P.among x bs) P st fr w (fun x acc fr' => ?_) rfl
  simp only [seq_cons, seq_nil, dup_run, push_run, ok_bind, setHas?_run P _ _ _ (getElem?_old hb _),
    ifElse_run, truthy_flag, setAdd_here, drop_run]
  cases P.among x bs <;> rfl

theorem subset?_run (ha : h[a]? = some (.hashset as)) (hb : h[b]? = some (.hashset bs)) :
    ∃ news, subset? P ⟨.set b :: .set a :: st, fr, h, w⟩ =
      .ok ⟨.int (boolToFlag ((P.order as).all fun x => P.among x bs)) :: st, fr, h ++ news, w⟩ := by
  refine ⟨[.rawvec (P.order as)], ?_⟩
  have hMembers : setMembers P ⟨.set a :: .int (-1) :: st, fr, h, w⟩ =
      .ok ⟨.darray h.length :: .int (-1) :: st, fr, h ++ [.rawvec (P.order as)], w⟩ := by
    show hsMembers P ⟨.addr a :: .int (-1) :: st, fr, h, w⟩ >>= seq [makeDarray] = _
    rw [hsMembers, withStore_run _ _ _ _ (hashset?_of ha)]
    rfl
  have hHolds : Holds (h ++ [.rawvec (P.order as)]) (.darray h.length) (P.order as) :=
    getElem?_here h [] _
  simp only [subset?, bind2_run, seq_cons, lit_run, push_run, ok_bind, hMembers, bind1_run,
    size_run _ _ _ hHolds, bind_seq_nil]
  rw [← bind_seq_nil (qdoLoop _ _)]
  refine walk_then (P.order as) (fun pre => ⟨.int (boolToFlag (pre.all fun x => P.among x bs)) ::
    st, fr, h ++ [.rawvec (P.order as)], w⟩) 0 (P.order as).length rfl (Nat.zero_add _)
    (fun pre x hp => ?_) rfl
  simp only [Machine.inLoop, Nat.zero_add, seq_cons, seq_nil, index_run, push_run, ok_bind,
    elementAt_item _ _ _ hHolds hp, setHas?_run P _ _ _ (getElem?_old hb _), bitand, int2_run, land_flags,
    List.all_append, List.all_cons, List.all_nil, Bool.and_true]

/-! Dicts. -/

section Dicts
variable {es fs : List (Val α × Val α)}

theorem newDict_run :
    newDict (⟨st, fr, h, w⟩ : Machine α ω) =
      .ok ⟨.dict h.length :: st, fr, h ++ [.hash []], w⟩ := rfl

theorem dictAt_run (ha : h[a]? = some (.hash es)) (k : Val α) :
    dictAt P ⟨.dict a :: k :: st, fr, h, w⟩ =
      .ok ⟨.int (boolToFlag (P.under k es).isSome) :: valueOf P k es :: st, fr, h, w⟩ := by
  show hashAt P ⟨.addr a :: k :: st, fr, h, w⟩ >>= seq [] = _
  rw [hashAt, withStore_run _ _ _ _ (hash?_of ha), bind1_run, valueOf]
  cases P.under k es <;> rfl

theorem dictSet_here (es : List (Val α × Val α)) (rest : List (Store α)) (k v : Val α) :
    dictSet P ⟨.dict h.length :: k :: v :: st, fr, h ++ .hash es :: rest, w⟩ =
      .ok ⟨st, fr, h ++ .hash (P.setAt v k es) :: rest, w⟩ := by
  show hashSet P ⟨.addr h.length :: k :: v :: st, fr, h ++ .hash es :: rest, w⟩ >>= seq [] = _
  rw [hashSet, withStore_run _ _ _ _ (hash?_of (getElem?_here h rest _)), bind2_run, write_run, set_here]
  rfl

theorem dictKeys_run (ha : h[a]? = some (.hash es)) (s : Store α) (front : List (Store α)) :
    dictKeys P ⟨.dict a :: st, fr, h ++ s :: front, w⟩ =
      .ok ⟨.darray (h.length + 1 + front.length) :: st, fr,
        h ++ s :: (front ++ [.rawvec (P.order (es.map (·.1)))]), w⟩ := by
  have hLength : (h ++ s :: front).length = h.length + 1 + front.length := by
    rw [List.length_append, List.length_cons]
    omega
  show hashKeys P ⟨.addr a :: st, fr, h ++ s :: front, w⟩ >>= seq [makeDarray] = _
  rw [hashKeys, withStore_run _ _ _ _ (hash?_of (getElem?_old ha _)), alloc_run, hLength,
    List.append_assoc]
  rfl

/-- Copy the entries of a dict over what the new one holds. -/
theorem merge_then {front : List (Store α)} {acc : List (Val α × Val α)} {ks : List (Val α)}
    {rest : List (Word α ω)} {r : Except Fault (Machine α ω)} (ha : h[a]? = some (.hash es))
    (hRest : seq rest ⟨st, fr, h ++ .hash (setAll P es acc ks) :: (front ++ [.rawvec ks]), w⟩ = r) :
    (qdoLoop [index, push (.darray (h.length + 1 + front.length)), elementAt,
        dup, push (.dict a), dictAt P, drop,
        swap, push (.dict h.length), dictSet P]
      ⟨.int 0 :: .int ks.length :: st, fr, h ++ .hash acc :: (front ++ [.rawvec ks]), w⟩ >>=
      seq rest) = r := by
  refine walk_then ks (fun pre => ⟨st, fr, h ++ .hash (setAll P es acc pre) ::
    (front ++ [.rawvec ks]), w⟩) 0 ks.length rfl (Nat.zero_add _) (fun pre k hp => ?_) hRest
  simp only [Machine.inLoop, Nat.zero_add, seq_cons, seq_nil, index_run, push_run, ok_bind,
    elementAt_item _ _ _ (holds_behind _ front ks) hp, dup_run, dictAt_run P _ _ _ (getElem?_old ha _),
    drop_run, swap_run, dictSet_here, setAll_snoc]

theorem dictMerge_run (ha : h[a]? = some (.hash es)) (hb : h[b]? = some (.hash fs)) :
    ∃ news, dictMerge P ⟨.dict b :: .dict a :: st, fr, h, w⟩ =
      .ok ⟨.dict h.length :: st, fr,
        h ++ .hash (setAll P fs (setAll P es [] (P.order (es.map (·.1)))) (P.order (fs.map (·.1)))) ::
          news, w⟩ := by
  refine ⟨([] ++ [.rawvec (P.order (es.map (·.1)))]) ++ [.rawvec (P.order (fs.map (·.1)))], ?_⟩
  simp only [dictMerge, bind2_run, seq_cons, newDict_run, push_run, ok_bind, bind1_run,
    dictKeys_run P _ _ _ ha, size_run _ _ _ (holds_behind _ [] _), lit_run, bind_seq_nil]
  refine merge_then P st fr w ha ?_
  simp only [seq_cons, push_run, ok_bind, bind1_run, dictKeys_run P _ _ _ hb,
    size_run _ _ _ (holds_behind _ _ _), lit_run, bind_seq_nil]
  exact merge_then P st fr w hb rfl

end Dicts
end Runs
end FactorForth.Correctness
