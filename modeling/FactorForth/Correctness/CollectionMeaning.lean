import FactorForth.Correctness.CollectionSets

/-! The collection algorithms against the list functions they are named after, and exactly when they
agree with them. -/

namespace FactorForth.Correctness
open FactorForth.Library FactorForth.Protocols
open FactorForth.Semantics (LoopFrame)
variable {α ω : Type}

/-- A collection with its elements. -/
structure Coll (α : Type) where
  val : Val α
  elements : List (Val α)

/-- A hash-set or hashtable with what it holds. -/
structure Hashed (β : Type) where
  data : Nat
  content : List β

/-- A call of one of the words. `order` is the comparison that `cmp` computes. -/
inductive Algorithm (α : Type) where
  | each (c : Coll α) (xt : α)
  | map (c : Coll α) (xt : α)
  | mapIndex (c : Coll α) (xt : α)
  | filter (c : Coll α) (xt : α)
  | fold (c : Coll α) (init : Val α) (xt : α)
  | tally (c : Coll α) (xt : α)
  | any (c : Coll α) (xt : α)
  | all (c : Coll α) (xt : α)
  | find (c : Coll α) (xt : α)
  | indexOf (x : Val α) (c : Coll α)
  | member (x : Val α) (c : Coll α)
  | partition (c : Coll α) (xt : α)
  | take (c : Coll α) (n : Int)
  | skip (c : Coll α) (n : Int)
  | reverse (c : Coll α)
  | concat (a b : Coll α)
  | sorted (c : Coll α)
  | reduce (c : Coll α) (xt : α)
  | minOf (c : Coll α) (order : Val α → Val α → Int)
  | maxOf (c : Coll α) (order : Val α → Val α → Int)
  | setUnion (a b : Hashed (Val α))
  | setIntersect (a b : Hashed (Val α))
  | setDifference (a b : Hashed (Val α))
  | subset (a b : Hashed (Val α))
  | dictMerge (a b : Hashed (Val α × Val α))

namespace Algorithm

def word (P : Program α ω) : Algorithm α → Word α ω
  | each _ _ => Protocols.each P
  | map _ _ => Protocols.map P
  | mapIndex _ _ => Protocols.mapIndex P
  | filter _ _ => Protocols.filter P
  | fold _ _ _ => Protocols.fold P
  | tally _ _ => Protocols.tally P
  | any _ _ => any? P
  | all _ _ => all? P
  | find _ _ => Protocols.find P
  | indexOf _ _ => Protocols.indexOf P
  | member _ _ => member? P
  | partition _ _ => Protocols.partition P
  | take _ _ => Protocols.take
  | skip _ _ => Protocols.skip
  | reverse _ => Protocols.reverse P
  | concat _ _ => Protocols.concat
  | sorted _ => sorted? P
  | reduce _ _ => Protocols.reduce P
  | minOf _ _ => Protocols.minOf P
  | maxOf _ _ => Protocols.maxOf P
  | setUnion _ _ => Protocols.setUnion P
  | setIntersect _ _ => Protocols.setIntersect P
  | setDifference _ _ => Protocols.setDifference P
  | subset _ _ => subset? P
  | dictMerge _ _ => Protocols.dictMerge P

/-- What the word finds on the stack, the top first. -/
def inputs : Algorithm α → List (Val α)
  | each c xt | map c xt | mapIndex c xt | filter c xt | tally c xt | any c xt | all c xt | find c xt
  | partition c xt | reduce c xt => [.other xt, c.val]
  | fold c init xt => [.other xt, init, c.val]
  | indexOf x c | member x c => [c.val, x]
  | take c n | skip c n => [.int n, c.val]
  | reverse c | sorted c | minOf c _ | maxOf c _ => [c.val]
  | concat a b => [b.val, a.val]
  | setUnion a b | setIntersect a b | setDifference a b | subset a b => [.set b.data, .set a.data]
  | dictMerge a b => [.dict b.data, .dict a.data]

end Algorithm

/-- `cmp` computes `order` on these elements, and it is an order. -/
structure Orders (P : Program α ω) (order : Val α → Val α → Int) (xs : List (Val α)) : Prop where
  computes : ∀ a ∈ xs, ∀ b ∈ xs, ∀ w, ((P.cmp a b).run w).1 = order a b
  antisymm : ∀ a ∈ xs, ∀ b ∈ xs, (0 < order a b ↔ order b a < 0)
  trans : ∀ a ∈ xs, ∀ b ∈ xs, ∀ c ∈ xs, order a b ≤ 0 → order b c ≤ 0 → order a c ≤ 0

def Coll.In (c : Coll α) (h : List (Store α)) : Prop := Holds h c.val c.elements

/-- The inputs are collections that hold what they are said to hold; the words that need an element
have one, and `cmp` orders what is to be ordered. -/
def Algorithm.Ready (P : Program α ω) (h : List (Store α)) : Algorithm α → Prop
  | each c _ | map c _ | mapIndex c _ | filter c _ | tally c _ | any c _ | all c _ | find c _
  | partition c _ | fold c _ _ | indexOf _ c | member _ c | take c _ | skip c _ | reverse c
  | sorted c => c.In h
  | concat a b => a.In h ∧ b.In h
  | reduce c _ => c.In h ∧ c.elements ≠ []
  | minOf c order | maxOf c order => c.In h ∧ c.elements ≠ [] ∧ Orders P order c.elements
  | setUnion a b | setIntersect a b | setDifference a b | subset a b =>
    h[a.data]? = some (.hashset a.content) ∧ h[b.data]? = some (.hashset b.content)
  | dictMerge a b => h[a.data]? = some (.hash a.content) ∧ h[b.data]? = some (.hash b.content)

/-- The store that a collection is over. -/
def storeOf : Val α → Nat
  | .grid _ _ a | .darray a | .set a | .dict a => a
  | .string chars => storeOf chars
  | _ => 0

/-- A new collection with these elements; `old` stores were there before. -/
def Made (old : Nat) (h : List (Store α)) (d : Val α) (ys : List (Val α)) : Prop :=
  old ≤ storeOf d ∧ Holds h d ys

/-- Collections of one class, and grids of one shape. -/
def SameClass : Val α → Val α → Prop
  | .grid width height _, .grid width' height' _ => width = width' ∧ height = height'
  | .darray _, .darray _ => True
  | .string _, .string _ => True
  | _, _ => False

/-- A new set whose members are the values that pass the test. -/
def MadeSet (P : Program α ω) (old : Nat) (h : List (Store α)) (d : Val α) (p : Val α → Bool) : Prop :=
  ∃ a xs, d = .set a ∧ old ≤ a ∧ h[a]? = some (.hashset xs) ∧ ∀ x, P.among x xs = p x

/-- What the list functions say of a run from the world `w` that leaves `outs`, top first, the stores
`h` and the world `w'`: every element is visited once and in order, and the outputs are theirs. -/
def Algorithm.Asked (P : Program α ω) (old : Nat) (h : List (Store α)) (w : ω) (outs : List (Val α))
    (w' : ω) : Algorithm α → Prop
  | each c xt => outs = [] ∧ w' = visited (P.call1 xt) c.elements w
  | map c xt => ∃ d, outs = [d] ∧ SameClass c.val d ∧
      Made old h d (results (P.call1r xt) c.elements w) ∧ w' = visited (P.call1r xt) c.elements w
  | mapIndex c xt => ∃ d, outs = [d] ∧ SameClass c.val d ∧
      Made old h d (results (fun p => P.call2r xt (.int p.2) p.1) c.elements.zipIdx w) ∧
      w' = visited (fun p => P.call2r xt (.int p.2) p.1) c.elements.zipIdx w
  | filter c xt => ∃ d, outs = [d] ∧ Made old h d (kept (results (verdict P xt) c.elements w)) ∧
      w' = visited (verdict P xt) c.elements w
  | fold c init xt => outs = [(folded (P.call2r xt) init c.elements w).1] ∧
      w' = (folded (P.call2r xt) init c.elements w).2
  | tally c xt => outs = [.int ((results (verdict P xt) c.elements w).countP (·.2))] ∧
      w' = visited (verdict P xt) c.elements w
  | any c xt => ∃ n, outs = [.int n] ∧
      (n ≠ 0 ↔ ∃ p ∈ results (verdict P xt) c.elements w, p.2 = true) ∧
      w' = visited (verdict P xt) c.elements w
  | all c xt => ∃ n, outs = [.int n] ∧
      (n ≠ 0 ↔ ∀ p ∈ results (verdict P xt) c.elements w, p.2 = true) ∧
      w' = visited (verdict P xt) c.elements w
  | find c xt => ∃ n, outs = [.int n, firstPassed (results (verdict P xt) c.elements w)] ∧
      (n ≠ 0 ↔ ∃ p ∈ results (verdict P xt) c.elements w, p.2 = true) ∧
      w' = visited (verdict P xt) c.elements w
  | indexOf x c => ∃ n, outs = [.int n, .int (firstIndex (results (P.equals x) c.elements w))] ∧
      (n ≠ 0 ↔ ∃ m ∈ results (P.equals x) c.elements w, m ≠ 0) ∧
      w' = visited (P.equals x) c.elements w
  | member x c => ∃ n, outs = [.int n] ∧ (n ≠ 0 ↔ ∃ m ∈ results (P.equals x) c.elements w, m ≠ 0) ∧
      w' = visited (P.equals x) c.elements w
  | partition c xt => ∃ yes no, outs = [no, yes] ∧ storeOf yes ≠ storeOf no ∧
      Made old h yes (kept (results (verdict P xt) c.elements w)) ∧
      Made old h no (dropped (results (verdict P xt) c.elements w)) ∧
      w' = visited (verdict P xt) c.elements w
  | take c n => ∃ d, outs = [d] ∧ Made old h d (c.elements.take n.toNat) ∧ w' = w
  | skip c n => ∃ d, outs = [d] ∧ Made old h d (c.elements.drop n.toNat) ∧ w' = w
  | reverse c => ∃ d, outs = [d] ∧ SameClass c.val d ∧ Made old h d c.elements.reverse ∧ w' = w
  | concat a b => ∃ d, outs = [d] ∧ Made old h d (a.elements ++ b.elements) ∧ w' = w
  | sorted c => ∃ n, outs = [.int n] ∧
      (n ≠ 0 ↔ ∀ m ∈ results (neighbours P) (c.elements.zip c.elements.tail) w, m ≤ 0) ∧
      w' = visited (neighbours P) (c.elements.zip c.elements.tail) w
  | reduce c xt => ∃ x rest, c.elements = x :: rest ∧ outs = [(folded (P.call2r xt) x rest w).1] ∧
      w' = (folded (P.call2r xt) x rest w).2
  | minOf c order => ∃ x ∈ c.elements, outs = [x] ∧ ∀ y ∈ c.elements, order x y ≤ 0
  | maxOf c order => ∃ x ∈ c.elements, outs = [x] ∧ ∀ y ∈ c.elements, order y x ≤ 0
  | setUnion a b => ∃ d, outs = [d] ∧
      MadeSet P old h d (fun x => P.among x a.content || P.among x b.content) ∧ w' = w
  | setIntersect a b => ∃ d, outs = [d] ∧
      MadeSet P old h d (fun x => P.among x a.content && P.among x b.content) ∧ w' = w
  | setDifference a b => ∃ d, outs = [d] ∧
      MadeSet P old h d (fun x => P.among x a.content && !P.among x b.content) ∧ w' = w
  | subset a b => ∃ n, outs = [.int n] ∧
      (n ≠ 0 ↔ ∀ x, P.among x a.content = true → P.among x b.content = true) ∧ w' = w
  | dictMerge a b => ∃ a' entries, outs = [.dict a'] ∧ old ≤ a' ∧ h[a']? = some (.hash entries) ∧
      (∀ k, P.under k entries = (P.under k b.content).or (P.under k a.content)) ∧ w' = w

/-- The call runs to its end, leaves the stores it found as they were, and gives what is asked. -/
def Algorithm.Meant (P : Program α ω) (st : List (Val α)) (fr : List LoopFrame) (h : List (Store α))
    (w : ω) (A : Algorithm α) : Prop :=
  ∃ outs news w', A.word P ⟨A.inputs ++ st, fr, h, w⟩ = .ok ⟨outs ++ st, fr, h ++ news, w'⟩ ∧
    A.Asked P h.length (h ++ news) w outs w'

/-- No pass is made that the list function does not make: DO finds an element, the bounds of ?DO do
not cross; and the verdicts of `all?` are integers that keep a common bit when all are true. -/
def Algorithm.Within (P : Program α ω) (w : ω) : Algorithm α → Prop
  | each c _ | filter c _ | fold c _ _ | sorted c => c.elements ≠ []
  | take _ n | skip _ n => 0 ≤ n
  | all c xt => (∀ v ∈ results (P.call1r xt) c.elements w, IsInt v) ∧
      ((∀ v ∈ results (P.call1r xt) c.elements w, P.truthy v = true) →
        andAll (results (P.call1r xt) c.elements w) ≠ 0)
  | _ => True

/-! The cases. -/

section Cases
variable (P : Program α ω) (st : List (Val α)) (fr : List LoopFrame) {h : List (Store α)} (w : ω)
  {c : Val α} {xs : List (Val α)}

theorem not_meant_of_error (A : Algorithm α) {e : Fault}
    (hRun : A.word P ⟨A.inputs ++ st, fr, h, w⟩ = .error e) : ¬ A.Meant P st fr h w := by
  rintro ⟨outs, news, w', hOk, -⟩
  rw [hRun] at hOk
  cases hOk

theorem meant_iff_of_ok (A : Algorithm α) (outs : List (Val α)) (news : List (Store α)) {w' : ω}
    (hRun : A.word P ⟨A.inputs ++ st, fr, h, w⟩ = .ok ⟨outs ++ st, fr, h ++ news, w'⟩) :
    A.Meant P st fr h w ↔ A.Asked P h.length (h ++ news) w outs w' := by
  constructor
  · rintro ⟨outs', news', w'', hOk, hAsked⟩
    rw [hRun, Except.ok.injEq, Machine.mk.injEq] at hOk
    obtain ⟨hOuts, -, hNews, rfl⟩ := hOk
    rwa [List.append_cancel_right hOuts, hNews]
  · exact fun hAsked => ⟨outs, news, w', hRun, hAsked⟩

/-- The same of a run that makes no store. -/
theorem meant_iff_of_same (A : Algorithm α) (outs : List (Val α)) {w' : ω}
    (hRun : A.word P ⟨A.inputs ++ st, fr, h, w⟩ = .ok ⟨outs ++ st, fr, h, w'⟩) :
    A.Meant P st fr h w ↔ A.Asked P h.length h w outs w' := by
  have hOk : A.word P ⟨A.inputs ++ st, fr, h, w⟩ = .ok ⟨outs ++ st, fr, h ++ [], w'⟩ := by
    rw [hRun, List.append_nil]
  have hIff := meant_iff_of_ok P st fr w A outs [] hOk
  rwa [List.append_nil] at hIff

theorem sameClass_like (hc : Holds h c xs) (a : Nat) : SameClass c (like a c) := by
  cases c with
  | grid width height b => exact ⟨rfl, rfl⟩
  | darray b => trivial
  | string chars => trivial
  | _ => exact hc.elim

theorem storeOf_like (hc : Holds h c xs) (a : Nat) : storeOf (like a c) = a := by
  cases c with
  | grid width height b => rfl
  | darray b => rfl
  | string chars => rfl
  | _ => exact hc.elim

theorem made_like (hc : Holds h c xs) {ys : List (Val α)} (hys : ys.length = xs.length) :
    Made h.length (h ++ [filling xs.length ys c]) (like h.length c) ys :=
  ⟨(storeOf_like hc _).ge, hc.like hys⟩

theorem made_darray (ys : List (Val α)) :
    Made h.length (h ++ [.rawvec ys]) (.darray h.length) ys := ⟨le_rfl, getElem?_here h [] _⟩

theorem flag_ne_zero (b : Bool) : boolToFlag b ≠ 0 ↔ b = true := by
  cases b <;> decide

theorem holds_unique {ys zs : List (Val α)} (hy : Holds h c ys) (hz : Holds h c zs) : ys = zs := by
  induction c with
  | grid width height a => exact Store.cells.inj (Option.some.inj (hy.1.symm.trans hz.1))
  | darray a => exact Store.rawvec.inj (Option.some.inj (Eq.trans (Eq.symm hy) hz))
  | string chars ih => exact ih hy hz
  | _ => exact hy.elim

/-- Verdicts and the cells they come from. -/
theorem results_verdict (xt : α) (xs : List (Val α)) (w : ω) :
    (results (verdict P xt) xs w).map (·.2) = (results (P.call1r xt) xs w).map P.truthy ∧
      visited (verdict P xt) xs w = visited (P.call1r xt) xs w := by
  induction xs using List.reverseRecOn with
  | nil => exact ⟨rfl, rfl⟩
  | append_singleton xs x ih =>
    rw [results_snoc, results_snoc, visited_snoc, visited_snoc, verdict_run, ih.2, List.map_append,
      List.map_append, ih.1]
    exact ⟨rfl, rfl⟩

section Visiting
variable {c : Coll α} (hc : c.In h) (xt : α)
include hc

theorem each_meant : (Algorithm.each c xt).Meant P st fr h w ↔ (Algorithm.each c xt).Within P w := by
  obtain ⟨c, xs⟩ := c
  by_cases hne : xs = []
  · subst hne
    have hRun := each_empty P xt st fr w hc
    exact iff_of_false (not_meant_of_error P st fr w (.each _ xt) hRun) fun h => h rfl
  · have hRun := each_run P xt st fr w hc hne
    exact iff_of_true ((meant_iff_of_same P st fr w (.each ⟨c, xs⟩ xt) [] hRun).2 ⟨rfl, rfl⟩) hne

theorem map_meant : (Algorithm.map c xt).Meant P st fr h w :=
  (meant_iff_of_ok P st fr w (.map c xt) [_] _ (map_run P xt st fr w hc)).2
    ⟨_, rfl, sameClass_like hc _, made_like hc (length_results _ _ _), rfl⟩

theorem mapIndex_meant : (Algorithm.mapIndex c xt).Meant P st fr h w :=
  (meant_iff_of_ok P st fr w (.mapIndex c xt) [_] _ (mapIndex_run P xt st fr w hc)).2
    ⟨_, rfl, sameClass_like hc _,
      made_like hc ((length_results _ _ _).trans List.length_zipIdx), rfl⟩

theorem filter_meant :
    (Algorithm.filter c xt).Meant P st fr h w ↔ (Algorithm.filter c xt).Within P w := by
  obtain ⟨c, xs⟩ := c
  by_cases hne : xs = []
  · subst hne
    have hRun := filter_empty P xt st fr w hc
    exact iff_of_false (not_meant_of_error P st fr w (.filter _ xt) hRun) fun h => h rfl
  · have hRun := filter_run P xt st fr w hc hne
    exact iff_of_true ((meant_iff_of_ok P st fr w (.filter ⟨c, xs⟩ xt) [_] _ hRun).2
      ⟨_, rfl, made_darray _, rfl⟩) hne

theorem fold_meant (init : Val α) :
    (Algorithm.fold c init xt).Meant P st fr h w ↔ (Algorithm.fold c init xt).Within P w := by
  obtain ⟨c, xs⟩ := c
  by_cases hne : xs = []
  · subst hne
    have hRun := fold_empty P st fr w (.other xt) hc init
    exact iff_of_false (not_meant_of_error P st fr w (.fold _ init xt) hRun) fun h => h rfl
  · have hRun := fold_run P st fr w (acts_other P xt) hc hne init
    exact iff_of_true ((meant_iff_of_same P st fr w (.fold ⟨c, xs⟩ init xt) [_] hRun).2 ⟨rfl, rfl⟩) hne

theorem tally_meant : (Algorithm.tally c xt).Meant P st fr h w :=
  (meant_iff_of_same P st fr w (.tally c xt) [_] (tally_run P xt st fr w hc)).2 ⟨rfl, rfl⟩

theorem any_meant : (Algorithm.any c xt).Meant P st fr h w :=
  (meant_iff_of_same P st fr w (.any c xt) [_] (any?_run P xt st fr w hc)).2
    ⟨_, rfl, (flag_ne_zero _).trans List.any_eq_true, rfl⟩

theorem find_meant : (Algorithm.find c xt).Meant P st fr h w :=
  (meant_iff_of_same P st fr w (.find c xt) [_, _] (find_run P xt st fr w hc)).2
    ⟨_, rfl, (flag_ne_zero _).trans List.any_eq_true, rfl⟩

theorem partition_meant : (Algorithm.partition c xt).Meant P st fr h w := by
  refine (meant_iff_of_ok P st fr w (.partition c xt) [_, _] _ (partition_run P xt st fr w hc)).2
    ⟨_, _, rfl, (Nat.lt_succ_self _).ne, ⟨le_rfl, getElem?_here h [_] _⟩, ⟨Nat.le_succ _, ?_⟩, rfl⟩
  have hHere := getElem?_here (h ++ [.rawvec (kept (results (verdict P xt) c.elements w))]) []
    (.rawvec (dropped (results (verdict P xt) c.elements w)))
  rwa [List.length_append, List.append_assoc] at hHere

theorem reduce_meant (hne : c.elements ≠ []) : (Algorithm.reduce c xt).Meant P st fr h w := by
  obtain ⟨c, xs⟩ := c
  obtain ⟨x, rest, rfl⟩ := List.exists_cons_of_ne_nil hne
  have hRun := reduce_run P xt st fr w hc
  exact (meant_iff_of_same P st fr w (.reduce ⟨c, x :: rest⟩ xt) [_] hRun).2 ⟨x, rest, rfl, rfl, rfl⟩

theorem all_meant : (Algorithm.all c xt).Meant P st fr h w ↔ (Algorithm.all c xt).Within P w := by
  obtain ⟨c, xs⟩ := c
  by_cases hInts : ∀ v ∈ results (P.call1r xt) xs w, IsInt v
  case neg =>
    have hRun := all?_fault P xt st fr w hc hInts
    exact iff_of_false (not_meant_of_error P st fr w (.all ⟨c, xs⟩ xt) hRun) fun h => hInts h.1
  case pos =>
    have hTrue : (∀ p ∈ results (verdict P xt) xs w, p.2 = true) ↔
        ∀ v ∈ results (P.call1r xt) xs w, P.truthy v = true := by
      rw [← List.forall_mem_map (f := fun p : Val α × Bool => p.2) (P := fun b => b = true),
        (results_verdict P xt xs w).1, List.forall_mem_map]
    -- a false verdict clears every bit
    have hFalse : andAll (results (P.call1r xt) xs w) ≠ 0 →
        ∀ v ∈ results (P.call1r xt) xs w, P.truthy v = true := by
      intro hAnd v hv
      obtain ⟨n, rfl⟩ := hInts v hv
      refine bne_iff_ne.2 fun hZero => hAnd (foldl_land_of_zero ?_ _)
      exact List.mem_map.2 ⟨_, hv, hZero⟩
    rw [meant_iff_of_same P st fr w (.all ⟨c, xs⟩ xt) [_] (all?_run P xt st fr w hc hInts)]
    constructor
    · rintro ⟨n, hn, hAsked, -⟩
      have hCell : andAll (results (P.call1r xt) xs w) = n := Val.int.inj (List.head_eq_of_cons_eq hn)
      subst hCell
      exact ⟨hInts, fun h => hAsked.2 (hTrue.2 h)⟩
    · rintro ⟨-, hAnd⟩
      exact ⟨_, rfl, ⟨fun h => hTrue.2 (hFalse h), fun h => hAnd (hTrue.1 h)⟩,
        (results_verdict P xt xs w).2.symm⟩

theorem sorted_meant : (Algorithm.sorted c).Meant P st fr h w ↔ (Algorithm.sorted c).Within P w := by
  obtain ⟨c, xs⟩ := c
  by_cases hne : xs = []
  · subst hne
    have hRun := sorted?_empty P st fr w hc
    exact iff_of_false (not_meant_of_error P st fr w (.sorted _) hRun) fun h => h rfl
  · have hRun := sorted?_run P st fr w hc hne
    refine iff_of_true ((meant_iff_of_same P st fr w (.sorted ⟨c, xs⟩) [_] hRun).2
      ⟨_, rfl, (flag_ne_zero _).trans ?_, rfl⟩) hne
    rw [notInverted, List.all_eq_true]
    simp only [decide_eq_true_eq]

theorem indexOf_meant (x : Val α) : (Algorithm.indexOf x c).Meant P st fr h w := by
  refine (meant_iff_of_same P st fr w (.indexOf x c) [_, _] (indexOf_run P st fr w hc x)).2
    ⟨_, rfl, (flag_ne_zero _).trans ?_, rfl⟩
  rw [List.any_eq_true]
  simp only [bne_iff_ne]

theorem member_meant (x : Val α) : (Algorithm.member x c).Meant P st fr h w := by
  refine (meant_iff_of_same P st fr w (.member x c) [_] (member?_run P st fr w hc x)).2
    ⟨_, rfl, ?_, rfl⟩
  rw [ne_eq, foldl_lor_eq_zero]
  simp only [not_forall, exists_prop, ne_eq]

theorem reverse_meant : (Algorithm.reverse c).Meant P st fr h w :=
  (meant_iff_of_ok P st fr w (.reverse c) [_] _ (reverse_run P st fr w hc)).2
    ⟨_, rfl, sameClass_like hc _, made_like hc List.length_reverse, rfl⟩

theorem take_meant (n : Int) :
    (Algorithm.take c n).Meant P st fr h w ↔ (Algorithm.take c n).Within P w := by
  rcases Int.lt_or_le n 0 with hn | hn
  · refine iff_of_false ?_ (Int.not_le.2 hn)
    obtain ⟨c, xs⟩ := c
    cases xs with
    | nil => exact not_meant_of_error P st fr w (.take _ n) (take_negative_empty st fr w hc hn)
    | cons x xs =>
      rw [meant_iff_of_ok P st fr w (.take _ n) [_] _ (take_negative st fr w hc hn)]
      rintro ⟨d, hd, ⟨-, hHolds⟩, -⟩
      obtain rfl := List.head_eq_of_cons_eq hd
      have hNone : n.toNat = 0 := Int.toNat_of_nonpos (Int.le_of_lt hn)
      have hOne : Holds (h ++ [.rawvec [x]]) (.darray h.length) [x] := getElem?_here h [] _
      have hEq := holds_unique hOne hHolds
      rw [hNone, List.take_zero] at hEq
      cases hEq
  · obtain ⟨k, rfl⟩ := Int.eq_ofNat_of_zero_le hn
    exact iff_of_true ((meant_iff_of_ok P st fr w (.take c k) [_] _ (take_run st fr w hc k)).2
      ⟨_, rfl, made_darray _, rfl⟩) hn

theorem skip_meant (n : Int) :
    (Algorithm.skip c n).Meant P st fr h w ↔ (Algorithm.skip c n).Within P w := by
  rcases Int.lt_or_le n 0 with hn | hn
  · have hRun := skip_negative st fr w hc hn
    exact iff_of_false (not_meant_of_error P st fr w (.skip c n) hRun) (Int.not_le.2 hn)
  · obtain ⟨k, rfl⟩ := Int.eq_ofNat_of_zero_le hn
    exact iff_of_true ((meant_iff_of_ok P st fr w (.skip c k) [_] _ (skip_run st fr w hc k)).2
      ⟨_, rfl, made_darray _, rfl⟩) hn

theorem concat_meant {b : Coll α} (hb : b.In h) : (Algorithm.concat c b).Meant P st fr h w :=
  (meant_iff_of_ok P st fr w (.concat c b) [_] _ (concat_run st fr w hc hb)).2
    ⟨_, rfl, made_darray _, rfl⟩

end Visiting

/-! The least and the greatest. -/

/-- Folding by a choice of the lower one finds a lower bound among the elements. -/
theorem folded_least {f : Val α → Val α → StateM ω (Val α)} (le : Val α → Val α → Prop)
    (hRefl : ∀ a ∈ xs, le a a) (hTrans : ∀ a ∈ xs, ∀ b ∈ xs, ∀ c ∈ xs, le a b → le b c → le a c)
    (hPick : ∀ a ∈ xs, ∀ b ∈ xs, ∀ w, (((f a b).run w).1 = a ∧ le a b) ∨
      (((f a b).run w).1 = b ∧ le b a)) {x : Val α} (hx : x ∈ xs) (pre : List (Val α))
    (hPre : ∀ y ∈ pre, y ∈ xs) :
    (folded f x pre w).1 ∈ xs ∧ ∀ y ∈ pre, le (folded f x pre w).1 y := by
  induction pre using List.reverseRecOn with
  | nil => exact ⟨hx, fun y hy => nomatch hy⟩
  | append_singleton pre z ih =>
    obtain ⟨hMem, hLeast⟩ := ih fun y hy => hPre y (List.mem_append_left _ hy)
    have hz : z ∈ xs := hPre z (List.mem_append_right _ (List.mem_singleton_self z))
    rw [folded_snoc]
    rcases hPick _ hMem z hz (folded f x pre w).2 with ⟨hPicked, hLe⟩ | ⟨hPicked, hLe⟩
    · rw [hPicked]
      refine ⟨hMem, fun y hy => ?_⟩
      rcases List.mem_append.1 hy with hy | hy
      · exact hLeast y hy
      · rwa [List.mem_singleton.1 hy]
    · rw [hPicked]
      refine ⟨hz, fun y hy => ?_⟩
      rcases List.mem_append.1 hy with hy | hy
      · exact hTrans z hz _ hMem y (hPre y (List.mem_append_left _ hy)) hLe (hLeast y hy)
      · rw [List.mem_singleton.1 hy]
        exact hRefl z hz

section Least
variable {order : Val α → Val α → Int} (hOrders : Orders P order xs)
include hOrders

theorem order_self : ∀ a ∈ xs, order a a ≤ 0 := by
  intro a ha
  have hSelf := hOrders.antisymm a ha a ha
  omega

theorem lesserOf_pick : ∀ a ∈ xs, ∀ b ∈ xs, ∀ w, (((lesserOf P a b).run w).1 = a ∧ order a b ≤ 0) ∨
    (((lesserOf P a b).run w).1 = b ∧ order b a ≤ 0) := by
  intro a ha b hb w
  have hRun : ((lesserOf P a b).run w).1 = if order a b < 0 then a else b := by
    rw [← hOrders.computes a ha b hb w]
    rfl
  rw [hRun]
  split
  case isTrue hLess => exact Or.inl ⟨rfl, Int.le_of_lt hLess⟩
  case isFalse hNot =>
    have hSwap := hOrders.antisymm b hb a ha
    exact Or.inr ⟨rfl, by omega⟩

theorem greaterOf_pick : ∀ a ∈ xs, ∀ b ∈ xs, ∀ w,
    (((greaterOf P a b).run w).1 = a ∧ order b a ≤ 0) ∨
      (((greaterOf P a b).run w).1 = b ∧ order a b ≤ 0) := by
  intro a ha b hb w
  have hRun : ((greaterOf P a b).run w).1 = if 0 < order a b then a else b := by
    rw [← hOrders.computes a ha b hb w]
    rfl
  rw [hRun]
  split
  case isTrue hMore =>
    have hSwap := hOrders.antisymm a ha b hb
    exact Or.inl ⟨rfl, by omega⟩
  case isFalse hNot => exact Or.inr ⟨rfl, Int.not_lt.1 hNot⟩

theorem minOf_meant (hc : Holds h c xs) (hne : xs ≠ []) :
    (Algorithm.minOf ⟨c, xs⟩ order).Meant P st fr h w := by
  obtain ⟨x, rest, rfl⟩ := List.exists_cons_of_ne_nil hne
  have hRun := minOf_run P st fr w hc
  obtain ⟨hMem, hLeast⟩ := folded_least w (fun a b => order a b ≤ 0) (order_self P hOrders)
    hOrders.trans (lesserOf_pick P hOrders) List.mem_cons_self (x :: rest) fun y hy => hy
  exact (meant_iff_of_same P st fr w (.minOf ⟨c, x :: rest⟩ order) [_] hRun).2
    ⟨_, hMem, rfl, hLeast⟩

theorem maxOf_meant (hc : Holds h c xs) (hne : xs ≠ []) :
    (Algorithm.maxOf ⟨c, xs⟩ order).Meant P st fr h w := by
  obtain ⟨x, rest, rfl⟩ := List.exists_cons_of_ne_nil hne
  have hRun := maxOf_run P st fr w hc
  obtain ⟨hMem, hLeast⟩ := folded_least w (fun a b => order b a ≤ 0) (order_self P hOrders)
    (fun a ha b hb c hc hab hbc => hOrders.trans c hc b hb a ha hbc hab)
    (greaterOf_pick P hOrders) List.mem_cons_self (x :: rest) fun y hy => hy
  exact (meant_iff_of_same P st fr w (.maxOf ⟨c, x :: rest⟩ order) [_] hRun).2
    ⟨_, hMem, rfl, hLeast⟩

end Least

/-! Sets and dicts. -/

section Hashes
variable {a b : Hashed (Val α)}

theorem setUnion_meant (ha : h[a.data]? = some (.hashset a.content))
    (hb : h[b.data]? = some (.hashset b.content)) :
    (Algorithm.setUnion a b).Meant P st fr h w := by
  obtain ⟨news, hRun⟩ := setUnion_run P st fr w ha hb
  refine (meant_iff_of_ok P st fr w (.setUnion a b) [_] _ hRun).2
    ⟨_, rfl, ⟨_, _, rfl, le_rfl, getElem?_here h news _, fun x => ?_⟩, rfl⟩
  rw [among_adjoinAll, among_adjoinAll, among_order, among_order, Bool.or_comm]
  exact congrArg _ (Bool.false_or _)

theorem setIntersect_meant (ha : h[a.data]? = some (.hashset a.content))
    (hb : h[b.data]? = some (.hashset b.content)) :
    (Algorithm.setIntersect a b).Meant P st fr h w := by
  obtain ⟨news, hRun⟩ := setIntersect_run P st fr w ha hb
  refine (meant_iff_of_ok P st fr w (.setIntersect a b) [_] _ hRun).2
    ⟨_, rfl, ⟨_, _, rfl, le_rfl, getElem?_here h news _, fun x => ?_⟩, rfl⟩
  rw [among_adjoinAll, among_filter P (fun _ _ hSame => among_same P hSame _), among_order]
  exact Bool.false_or _

theorem setDifference_meant (ha : h[a.data]? = some (.hashset a.content))
    (hb : h[b.data]? = some (.hashset b.content)) :
    (Algorithm.setDifference a b).Meant P st fr h w := by
  obtain ⟨news, hRun⟩ := setDifference_run P st fr w ha hb
  refine (meant_iff_of_ok P st fr w (.setDifference a b) [_] _ hRun).2
    ⟨_, rfl, ⟨_, _, rfl, le_rfl, getElem?_here h news _, fun x => ?_⟩, rfl⟩
  rw [among_adjoinAll, among_filter P (fun _ _ hSame => congrArg not (among_same P hSame _)), among_order]
  exact Bool.false_or _

theorem subset_meant (ha : h[a.data]? = some (.hashset a.content))
    (hb : h[b.data]? = some (.hashset b.content)) :
    (Algorithm.subset a b).Meant P st fr h w := by
  obtain ⟨news, hRun⟩ := subset?_run P st fr w ha hb
  refine (meant_iff_of_ok P st fr w (.subset a b) [_] _ hRun).2
    ⟨_, rfl, (flag_ne_zero _).trans ?_, rfl⟩
  rw [List.all_eq_true]
  constructor
  · intro hAll x hx
    obtain ⟨y, hy, hSame⟩ := (among_iff P).1 hx
    rw [among_same P hSame]
    exact hAll y ((P.order_perm _).mem_iff.2 hy)
  · intro hAll x hx
    exact hAll x ((among_iff P).2 ⟨x, (P.order_perm _).mem_iff.1 hx, P.same_equiv.refl x⟩)

theorem dictMerge_meant {a b : Hashed (Val α × Val α)} (ha : h[a.data]? = some (.hash a.content))
    (hb : h[b.data]? = some (.hash b.content)) : (Algorithm.dictMerge a b).Meant P st fr h w := by
  obtain ⟨news, hRun⟩ := dictMerge_run P st fr w ha hb
  refine (meant_iff_of_ok P st fr w (.dictMerge a b) [_] _ hRun).2
    ⟨_, _, rfl, le_rfl, getElem?_here h news _, fun k => ?_, rfl⟩
  rw [under_setAll_keys, under_setAll_keys]
  exact congrArg _ (Option.or_none)

end Hashes
end Cases

/-- A call does what the list function of its name does exactly when it stays within its bounds. -/
theorem algorithm_meant (P : Program α ω) (A : Algorithm α) (st : List (Val α)) (fr : List LoopFrame)
    {h : List (Store α)} (w : ω) (hReady : A.Ready P h) : A.Meant P st fr h w ↔ A.Within P w := by
  cases A with
  | each c xt => exact each_meant P st fr w hReady xt
  | map c xt => exact iff_of_true (map_meant P st fr w hReady xt) trivial
  | mapIndex c xt => exact iff_of_true (mapIndex_meant P st fr w hReady xt) trivial
  | filter c xt => exact filter_meant P st fr w hReady xt
  | fold c init xt => exact fold_meant P st fr w hReady xt init
  | tally c xt => exact iff_of_true (tally_meant P st fr w hReady xt) trivial
  | any c xt => exact iff_of_true (any_meant P st fr w hReady xt) trivial
  | all c xt => exact all_meant P st fr w hReady xt
  | find c xt => exact iff_of_true (find_meant P st fr w hReady xt) trivial
  | indexOf x c => exact iff_of_true (indexOf_meant P st fr w hReady x) trivial
  | member x c => exact iff_of_true (member_meant P st fr w hReady x) trivial
  | partition c xt => exact iff_of_true (partition_meant P st fr w hReady xt) trivial
  | take c n => exact take_meant P st fr w hReady n
  | skip c n => exact skip_meant P st fr w hReady n
  | reverse c => exact iff_of_true (reverse_meant P st fr w hReady) trivial
  | concat a b => exact iff_of_true (concat_meant P st fr w hReady.1 hReady.2) trivial
  | sorted c => exact sorted_meant P st fr w hReady
  | reduce c xt => exact iff_of_true (reduce_meant P st fr w hReady.1 xt hReady.2) trivial
  | minOf c order =>
    exact iff_of_true (minOf_meant P st fr w hReady.2.2 hReady.1 hReady.2.1) trivial
  | maxOf c order =>
    exact iff_of_true (maxOf_meant P st fr w hReady.2.2 hReady.1 hReady.2.1) trivial
  | setUnion a b => exact iff_of_true (setUnion_meant P st fr w hReady.1 hReady.2) trivial
  | setIntersect a b => exact iff_of_true (setIntersect_meant P st fr w hReady.1 hReady.2) trivial
  | setDifference a b => exact iff_of_true (setDifference_meant P st fr w hReady.1 hReady.2) trivial
  | subset a b => exact iff_of_true (subset_meant P st fr w hReady.1 hReady.2) trivial
  | dictMerge a b => exact iff_of_true (dictMerge_meant P st fr w hReady.1 hReady.2) trivial
/-- A program whose token prints its argument, counts it up, or adds it to what there is. -/
def countingProgram : Program Unit (List (Val Unit)) where
  call1 _ x := modify (· ++ [x])
  call1r _ x := pure (match x with | .int n => .int (n + 1) | v => v)
  call2r _ a x := pure (match a, x with | .int m, .int n => .int (m + n) | v, _ => v)
  equals a b := pure (boolToFlag (decide (a = b)))
  cmp a b := pure (match a, b with | .int m, .int n => m - n | _, _ => 0)
  isZero _ := false
  filler := .int 0
  f := ()
  same a b := decide (a = b)
  same_equiv := ⟨fun _ => decide_eq_true rfl, fun h => decide_eq_true (of_decide_eq_true h).symm,
    fun h h' => decide_eq_true ((of_decide_eq_true h).trans (of_decide_eq_true h'))⟩
  order xs := xs
  order_perm xs := List.Perm.refl xs

theorem each_of_two_meant :
    (Algorithm.each ⟨.darray 0, [.int 7, .int 8]⟩ ()).Meant countingProgram [] []
      [.rawvec [.int 7, .int 8]] [] := by
  have hHolds : Holds [.rawvec [.int 7, .int 8]] (.darray 0 : Val Unit) [.int 7, .int 8] := rfl
  exact (algorithm_meant countingProgram (.each ⟨.darray 0, [.int 7, .int 8]⟩ ()) [] [] [] hHolds).2
    (List.cons_ne_nil _ _)

/-- `each` calls its token for the element at index 0 of a collection that has none. -/
theorem each_of_none_not_meant :
    (Algorithm.each ⟨.darray 0, []⟩ ()).Ready countingProgram [.rawvec []] ∧
      ¬ (Algorithm.each ⟨.darray 0, []⟩ ()).Meant countingProgram [] [] [.rawvec []] [] := by
  have hEmpty : Holds [.rawvec []] (.darray 0 : Val Unit) [] := rfl
  have hRun := each_empty countingProgram () [] [] [] hEmpty
  exact ⟨rfl, not_meant_of_error countingProgram [] [] [] (.each ⟨.darray 0, []⟩ ()) hRun⟩

end FactorForth.Correctness
