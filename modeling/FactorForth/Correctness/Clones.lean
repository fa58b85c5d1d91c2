import FactorForth.Correctness.CopyWords
import FactorForth.Correctness.SplitJoin
import FactorForth.Library.Addresses

/-! Runs of copies and writes: every copy has its own contents. -/

namespace FactorForth.Correctness
open FactorForth.Library FactorForth.Protocols
open FactorForth.Semantics (LoopFrame)
variable {α ω : Type}

/-! What the steps keep. -/

/-- Every copy has its own contents. -/
def Separate (s : Copies α ω) (fam : List (Store (Obj α))) : Prop :=
  found s.2.heap (s.1.map storeOf) = fam.map some

/-- What the steps keep: copies of one class, over stores of their own unless they are strings. -/
structure Kept (c : Val (Obj α)) (s : Copies α ω) (fam : List (Store (Obj α))) : Prop where
  copies : ∀ o ∈ s.1, ∃ a, o = moved a c
  separate : Separate s fam
  library : ∀ t ∈ fam, Library c t
  distinct : ¬ IsString c → (s.1.map storeOf).Nodup

/-- The step does not change a string that has copies. -/
def Harmless (P : TextProgram α ω) (c : Val (Obj α)) (fam : List (Store (Obj α))) : Act α → Prop
  | .clone _ => True
  | .write i w => IsString c → 1 < fam.length →
    ∀ s t, fam[i]? = some s → w.applied P c s = some t → t = s

section Steps
variable {P : TextProgram α ω} {c : Val (Obj α)} {s : Copies α ω} {fam : List (Store (Obj α))}

theorem Separate.length (h : Separate s fam) : s.1.length = fam.length := by
  have hLength := congrArg List.length h
  rwa [length_found, List.length_map, List.length_map] at hLength

theorem Separate.at {i : Nat} {o : Val (Obj α)} (h : Separate s fam) (ho : s.1[i]? = some o) :
    ∃ t, fam[i]? = some t ∧ s.2.heap[storeOf o]? = some t := by
  have hAt := congrArg (·[i]?) h
  simp only [found_getElem?, List.getElem?_map, ho, Option.map_some] at hAt
  cases hi : fam[i]? with
  | none =>
    rw [hi] at hAt
    cases hAt
  | some t =>
    rw [hi] at hAt
    exact ⟨t, rfl, Option.some.inj hAt⟩

theorem Separate.none {i : Nat} (h : Separate s fam) (ho : s.1[i]? = none) : fam[i]? = none := by
  rw [List.getElem?_eq_none_iff] at ho ⊢
  rwa [← h.length]

theorem Kept.inHeap (h : Kept c s fam) : ∀ a ∈ s.1.map storeOf, a < s.2.heap.length := by
  intro a ha
  obtain ⟨o, ho, rfl⟩ := List.mem_map.mp ha
  obtain ⟨i, hi⟩ := List.getElem?_of_mem ho
  obtain ⟨t, -, ht⟩ := h.separate.at hi
  exact (List.getElem?_eq_some_iff.mp ht).1

theorem clone_follows (h : Kept c s fam) (i : Nat) :
    Follows (Kept c) ((Act.clone i).step P s) ((Act.clone i).change P c fam) := by
  obtain ⟨objs, st, fr, heap, wd⟩ := s
  cases ho : objs[i]? with
  | none =>
    have hFam := h.separate.none ho
    simp only [Act.step, Act.change, ho, hFam, Option.map_none]
    exact ⟨_, rfl⟩
  | some o =>
    obtain ⟨t, hFam, hStore⟩ := h.separate.at ho
    obtain ⟨a, rfl⟩ := h.copies o (List.mem_of_getElem? ho)
    have hLibrary := h.library t (List.mem_of_getElem? hFam)
    simp only [Act.change, hFam, Option.map_some]
    by_cases hString : IsString c
    · have hSame := moved_string c a hString
      rw [hSame] at ho hStore
      have hStep : (Act.clone i).step P (objs, ⟨st, fr, heap, wd⟩) = .ok (objs ++ [c], ⟨st, fr, heap, wd⟩) := by
        cases c with
        | string chars => simp only [Act.step, ho, clone_string, ok_bind]
        | _ => exact hString.elim
      refine ⟨_, hStep, ?_, ?_, ?_, fun hNot => absurd hString hNot⟩
      · intro o' ho'
        rcases List.mem_append.mp ho' with ho' | ho'
        · exact h.copies o' ho'
        · exact ⟨a, (List.mem_singleton.mp ho').trans hSame.symm⟩
      · have hSeparate := h.separate
        rw [Separate] at hSeparate ⊢
        rw [List.map_append, found_append_addrs, hSeparate, List.map_append]
        exact congrArg (fam.map some ++ [·]) hStore
      · intro t' ht'
        rcases List.mem_append.mp ht' with ht' | ht'
        · exact h.library t' ht'
        · rwa [List.mem_singleton.mp ht']
    · have hCopy := clone_run st fr wd hStore ((library_moved c t a).mpr hLibrary)
        (mt (isString_moved c a).mp hString)
      rw [moved_moved] at hCopy
      have hStep : (Act.clone i).step P (objs, ⟨st, fr, heap, wd⟩) =
          .ok (objs ++ [moved heap.length c], ⟨st, fr, heap ++ [t], wd⟩) := by
        simp only [Act.step, ho, hCopy, ok_bind]
      have hNew := storeOf_moved c t heap.length hLibrary hString
      refine ⟨_, hStep, ?_, ?_, ?_, fun hNot => ?_⟩
      · intro o' ho'
        rcases List.mem_append.mp ho' with ho' | ho'
        · exact h.copies o' ho'
        · exact ⟨_, List.mem_singleton.mp ho'⟩
      · have hSeparate := h.separate
        rw [Separate] at hSeparate ⊢
        rw [List.map_append, found_append_addrs, found_append h.inHeap, hSeparate, List.map_append,
          List.map_singleton, hNew]
        exact congrArg (fam.map some ++ [·]) (getElem?_here heap [] t)
      · intro t' ht'
        rcases List.mem_append.mp ht' with ht' | ht'
        · exact h.library t' ht'
        · rwa [List.mem_singleton.mp ht']
      · rw [List.map_append, List.map_singleton, hNew]
        refine (h.distinct hNot).append (List.nodup_singleton _) ?_
        intro b hb hb'
        rw [List.mem_singleton.mp hb'] at hb
        exact Nat.lt_irrefl _ (h.inHeap _ hb)

/-- A write to one of several collections over stores of their own, or to one that stays as it is. -/
theorem Kept.separate_set (h : Kept c s fam) {i : Nat} {w : Write α} (hHarmless : Harmless P c fam (.write i w))
    {o : Val (Obj α)} (ho : s.1[i]? = some o) {t t' : Store (Obj α)} (hFam : fam[i]? = some t)
    (hStore : s.2.heap[storeOf o]? = some t) (hApplied : w.applied P c t = some t') :
    found (s.2.heap.set (storeOf o) t') (s.1.map storeOf) = (fam.set i t').map some := by
  have hSeparate := h.separate
  rw [Separate] at hSeparate
  obtain ⟨hIn, hAt⟩ := List.getElem?_eq_some_iff.mp hStore
  have hAddr : (s.1.map storeOf)[i]? = some (storeOf o) := by rw [List.getElem?_map, ho, Option.map_some]
  by_cases hOwn : (s.1.map storeOf).Nodup
  · rw [found_set hOwn hAddr hIn, hSeparate, List.map_set]
  · have hString : IsString c := by
      by_contra hNot
      exact hOwn (h.distinct hNot)
    have hMany : 1 < fam.length := by
      by_contra hFew
      refine hOwn ?_
      have hLength : (s.1.map storeOf).length ≤ 1 := by
        rw [List.length_map, h.separate.length]
        exact Nat.le_of_not_lt hFew
      exact nodup_of_length hLength
    have hSame := hHarmless hString hMany t t' hFam hApplied
    obtain ⟨hFamIn, hFamAt⟩ := List.getElem?_eq_some_iff.mp hFam
    rw [hSame, ← hAt, List.set_getElem_self, hSeparate, hAt, ← hFamAt, List.set_getElem_self]

theorem step_follows (h : Kept c s fam) {act : Act α} (hIn : act.InBounds c)
    (hHarmless : Harmless P c fam act) :
    Follows (Kept c) (act.step P s) (act.change P c fam) := by
  cases act with
  | clone i => exact clone_follows h i
  | write i w =>
    obtain ⟨objs, st, fr, heap, wd⟩ := s
    cases ho : objs[i]? with
    | none =>
      have hFam := h.separate.none ho
      simp only [Act.step, Act.change, ho, hFam, Option.bind_none]
      exact ⟨_, rfl⟩
    | some o =>
      obtain ⟨t, hFam, hStore⟩ := h.separate.at ho
      obtain ⟨a, hCopy⟩ := h.copies o (List.mem_of_getElem? ho)
      have hLibrary := h.library t (List.mem_of_getElem? hFam)
      have hWrite := write_follows P st fr wd hStore (by rwa [hCopy, library_moved]) w
        (i := i) (by rwa [hCopy, inBounds_moved])
      rw [hCopy, applied_moved, ← hCopy] at hWrite
      simp only [Act.step, Act.change, ho, hFam, Option.bind_some]
      cases hApplied : w.applied P c t with
      | none =>
        rw [hApplied] at hWrite
        obtain ⟨e, hFault⟩ := hWrite
        rw [hFault]
        exact ⟨e, rfl⟩
      | some t' =>
        rw [hApplied] at hWrite
        obtain ⟨m', hRun, rfl⟩ := hWrite
        rw [hRun]
        refine ⟨_, rfl, h.copies, h.separate_set hHarmless ho hFam hStore hApplied, fun t'' ht'' => ?_, h.distinct⟩
        rcases List.mem_or_eq_of_mem_set ht'' with ht'' | rfl
        · exact h.library t'' ht''
        · exact applied_library P hLibrary hApplied

/-! Runs. -/

theorem acts_append (acts more : List (Act α)) (s : Copies α ω) :
    Act.run P (acts ++ more) s = Act.run P acts s >>= Act.run P more := by
  induction acts generalizing s with
  | nil => rfl
  | cons act acts ih =>
    rw [List.cons_append, Act.run, Act.run]
    cases act.step P s with
    | error e => rfl
    | ok s' => exact ih s'

theorem changes_append (acts more : List (Act α)) (fam : List (Store (Obj α))) :
    Act.changes P c (acts ++ more) fam = (Act.changes P c acts fam).bind (Act.changes P c more) := by
  induction acts generalizing fam with
  | nil => rfl
  | cons act acts ih =>
    rw [List.cons_append, Act.changes, Act.changes]
    cases act.change P c fam with
    | none => rfl
    | some fam' => exact ih fam'

theorem run_snoc (acts : List (Act α)) (act : Act α) (s : Copies α ω) :
    Act.run P (acts ++ [act]) s = Act.run P acts s >>= act.step P := by
  rw [acts_append]
  refine congrArg (Act.run P acts s >>= ·) (funext fun s' => ?_)
  rw [Act.run]
  cases act.step P s' <;> rfl

theorem changes_snoc (acts : List (Act α)) (act : Act α) (fam : List (Store (Obj α))) :
    Act.changes P c (acts ++ [act]) fam = (Act.changes P c acts fam).bind (act.change P c) := by
  rw [changes_append]
  refine congrArg (Act.changes P c acts fam).bind (funext fun fam' => ?_)
  rw [Act.changes]
  cases act.change P c fam' <;> rfl

/-- The contents at the end are those on the way changed by the writes addressed to them. -/
theorem changes_own (j : Nat) (acts : List (Act α)) : ∀ {fam fam' : List (Store (Obj α))} {t : Store (Obj α)},
    Act.changes P c acts fam = some fam' → fam[j]? = some t →
    ∃ t', fam'[j]? = some t' ∧ (Act.own j acts).foldlM (fun t w => w.applied P c t) t = some t' := by
  induction acts with
  | nil =>
    intro fam fam' t hEnd ht
    obtain rfl := Option.some.inj hEnd
    exact ⟨t, ht, rfl⟩
  | cons act acts ih =>
    intro fam fam' t hEnd ht
    rw [Act.changes] at hEnd
    obtain ⟨next, hNext, hEnd⟩ := Option.bind_eq_some_iff.mp hEnd
    cases act with
    | clone i =>
      obtain ⟨s, -, rfl⟩ := Option.map_eq_some_iff.mp hNext
      refine ih hEnd ?_
      rwa [List.getElem?_append_left (List.getElem?_eq_some_iff.mp ht).1]
    | write i w =>
      obtain ⟨s, hs, hNext⟩ := Option.bind_eq_some_iff.mp hNext
      obtain ⟨s', hs', rfl⟩ := Option.map_eq_some_iff.mp hNext
      rw [Act.own]
      by_cases hj : i = j
      · subst hj
        obtain rfl := Option.some.inj (hs.symm.trans ht)
        obtain ⟨t', ht', hFold⟩ := ih hEnd (List.getElem?_set_self (List.getElem?_eq_some_iff.mp ht).1)
        refine ⟨t', ht', ?_⟩
        rw [if_pos rfl, List.foldlM_cons, hs']
        exact hFold
      · rw [if_neg hj]
        refine ih hEnd ?_
        rwa [List.getElem?_set_ne hj]

/-- No write changes a string that has copies by then. -/
def Unshared (P : TextProgram α ω) (c : Val (Obj α)) (s : Store (Obj α)) (acts : List (Act α)) : Prop :=
  ∀ pre act, pre ++ [act] <+: acts → ∀ fam, Act.changes P c pre [s] = some fam → Harmless P c fam act

theorem run_follows {m : Machine (Obj α) (Returns α ω)} {t : Store (Obj α)}
    (ht : m.heap[storeOf c]? = some t) (hLibrary : Library c t) {acts : List (Act α)}
    (hIn : ∀ act ∈ acts, act.InBounds c) (hUnshared : Unshared P c t acts) (pre : List (Act α)) :
    pre <+: acts → Follows (Kept c) (Act.run P pre ([c], m)) (Act.changes P c pre [t]) := by
  induction pre using List.reverseRecOn with
  | nil =>
    intro _
    refine ⟨_, rfl, fun o ho => ⟨storeOf c, ?_⟩, congrArg ([·]) ht, fun s hs => ?_, fun _ =>
      List.nodup_singleton _⟩
    · rw [List.mem_singleton.mp ho]
      match c, t, hLibrary with
      | .grid _ _ _, .cells _, _ | .darray _, .rawvec _, _ | .string (.darray _), .rawvec _, _
      | .dict _, .hash _, _ | .set _, .hashset _, _ => rfl
    · rwa [List.mem_singleton.mp hs]
  | append_singleton pre act ih =>
    intro hPrefix
    have hBefore := ih (prefix_snoc hPrefix)
    rw [run_snoc, changes_snoc]
    cases hFam : Act.changes P c pre [t] with
    | none =>
      rw [hFam] at hBefore
      obtain ⟨e, hFault⟩ := hBefore
      rw [hFault]
      exact ⟨e, rfl⟩
    | some fam =>
      rw [hFam] at hBefore
      obtain ⟨s, hRun, hKept⟩ := hBefore
      have hMem : act ∈ acts := hPrefix.subset (List.mem_append_right _ (List.mem_singleton_self act))
      rw [hRun]
      exact step_follows hKept (hIn act hMem) (hUnshared pre act hPrefix fam hFam)

/-- Every copy of a string is the string. -/
theorem run_string (hString : IsString c) (pre : List (Act α)) {s s' : Copies α ω}
    (hAll : ∀ o ∈ s.1, o = c) (hRun : Act.run P pre s = .ok s') : ∀ o ∈ s'.1, o = c := by
  induction pre generalizing s with
  | nil =>
    obtain rfl := Except.ok.inj hRun
    exact hAll
  | cons act pre ih =>
    rw [Act.run] at hRun
    cases hStep : act.step P s with
    | error e =>
      rw [hStep] at hRun
      cases hRun
    | ok next =>
      rw [hStep] at hRun
      refine ih ?_ hRun
      obtain ⟨objs, st, fr, heap, wd⟩ := s
      cases act with
      | clone i =>
        cases ho : objs[i]? with
        | none =>
          simp only [Act.step, ho] at hStep
          cases hStep
        | some o =>
          obtain rfl := hAll o (List.mem_of_getElem? ho)
          cases o with
          | string chars =>
            simp only [Act.step, ho, clone_string, ok_bind] at hStep
            obtain rfl := Except.ok.inj hStep
            intro o' ho'
            rcases List.mem_append.mp ho' with ho' | ho'
            · exact hAll o' ho'
            · exact List.mem_singleton.mp ho'
          | _ => exact hString.elim
      | write i w =>
        cases ho : objs[i]? with
        | none =>
          simp only [Act.step, ho] at hStep
          cases hStep
        | some o =>
          simp only [Act.step, ho] at hStep
          cases hWords : seq (w.words P o) ⟨st, fr, heap, wd⟩ with
          | error e =>
            rw [hWords] at hStep
            cases hStep
          | ok m' =>
            rw [hWords] at hStep
            obtain rfl := Except.ok.inj hStep
            exact hAll

/-- Copies that are one string have one contents. -/
theorem Separate.shared {s : Copies α ω} {fam : List (Store (Obj α))} (h : Separate s fam)
    (hAll : ∀ o ∈ s.1, o = c) {i j : Nat} {t u : Store (Obj α)} (hi : fam[i]? = some t)
    (hj : fam[j]? = some u) : t = u := by
  have hAt : ∀ {k : Nat} {t : Store (Obj α)}, fam[k]? = some t → s.2.heap[storeOf c]? = some t := by
    intro k t hk
    obtain ⟨hLess, -⟩ := List.getElem?_eq_some_iff.mp hk
    rw [← h.length] at hLess
    have ho := List.getElem?_eq_getElem hLess
    obtain ⟨t', hk', ht'⟩ := h.at ho
    rw [hAll _ (List.getElem_mem hLess)] at ht'
    exact ht'.trans (hk'.symm.trans hk)
  exact Option.some.inj ((hAt hi).symm.trans (hAt hj))

end Steps

/-! The law. -/

/-- At every point of the run each copy has the contents that it was made with, changed by the writes
addressed to it. -/
def Independent (P : TextProgram α ω) (c : Val (Obj α)) (t : Store (Obj α))
    (m : Machine (Obj α) (Returns α ω)) (acts : List (Act α)) : Prop :=
  ∀ pre, pre <+: acts → Follows Separate (Act.run P pre ([c], m)) (Act.changes P c pre [t])

/-- A grid is a map of all its pairs: each has a value, and a write at one changes that one alone. -/
def GridMap (α ω : Type) : Prop :=
  ∀ (m : Machine (Obj α) (Returns α ω)) (w h : Int) (a : Nat) (xs : List (Val (Obj α))),
    m.heap[a]? = some (.cells xs) → (xs.length : Int) = w * h →
    ∃ f : Int → Int → Val (Obj α),
      (∀ x y, InGrid w h x y →
        atXY { m with stack := .grid w h a :: .int y :: .int x :: m.stack } =
          .ok { m with stack := f x y :: m.stack }) ∧
      ∀ x y v, InGrid w h x y →
        ∃ h', putXY { m with stack := .grid w h a :: .int y :: .int x :: v :: m.stack } =
            .ok { m with heap := h' } ∧
          ∀ x' y', InGrid w h x' y' →
            atXY { m with heap := h', stack := .grid w h a :: .int y' :: .int x' :: m.stack } =
              .ok { m with heap := h', stack := (if x' = x ∧ y' = y then v else f x' y') :: m.stack }

theorem gridMap : GridMap α ω := by
  intro m w h a xs ha hLength
  have hPlaced : ∀ {x y : Int}, InGrid w h x y → (x + y * w).toNat < xs.length := by
    intro x y hCell
    have hPlace := gridPlace_lt hCell
    omega
  have hRead : ∀ {x y : Int}, InGrid w h x y →
      xs[(x + y * w).toNat]? = some (xs[(x + y * w).toNat]?.getD (.int 0)) := by
    intro x y hCell
    rw [List.getElem?_eq_getElem (hPlaced hCell), Option.getD_some]
  refine ⟨fun x y => xs[(x + y * w).toNat]?.getD (.int 0), fun x y hCell => ?_, fun x y v hCell => ?_⟩
  · exact atXY_run m.stack m.frames m.world ha hCell (hRead hCell)
  · refine ⟨_, putXY_run m.stack m.frames m.world ha hLength hCell v, fun x' y' hCell' => ?_⟩
    have hHere : (m.heap.set a (.cells (xs.set (x + y * w).toNat v)))[a]? =
        some (.cells (xs.set (x + y * w).toNat v)) :=
      List.getElem?_set_self (List.getElem?_eq_some_iff.mp ha).1
    refine atXY_run m.stack m.frames m.world hHere hCell' ?_
    by_cases hSame : x' = x ∧ y' = y
    · obtain ⟨rfl, rfl⟩ := hSame
      rw [if_pos ⟨rfl, rfl⟩, List.getElem?_set_self (hPlaced hCell')]
    · have hPlace := gridPlace_lt hCell
      have hPlace' := gridPlace_lt hCell'
      have hOther : (x + y * w).toNat ≠ (x' + y' * w).toNat := by
        intro hEq
        have hBoth := gridPlace_injective hCell' hCell (by omega)
        exact hSame hBoth
      rw [if_neg hSame, List.getElem?_set_ne hOther]
      exact hRead hCell'

theorem Independent.unshared {m : Machine (Obj α) (Returns α ω)} {P : TextProgram α ω} {c : Val (Obj α)}
    {t : Store (Obj α)} {acts : List (Act α)} (hRuns : Independent P c t m acts) : Unshared P c t acts := by
  intro pre act hPrefix fam hFam
  cases act with
  | clone i => exact trivial
  | write i w =>
    intro hString hMany s u hs hApplied
    have hBefore := hRuns pre (prefix_snoc hPrefix)
    have hAfter := hRuns _ hPrefix
    rw [hFam] at hBefore
    obtain ⟨before, hRun, hSeparate⟩ := hBefore
    have hChange : Act.changes P c (pre ++ [.write i w]) [t] = some (fam.set i u) := by
      rw [changes_snoc, hFam, Option.bind_some, Act.change, hs, Option.bind_some, hApplied, Option.map_some]
    rw [hChange] at hAfter
    obtain ⟨after, hRun', hSeparate'⟩ := hAfter
    have hOne : ∀ o ∈ ([c], m).1, o = c := fun o ho => List.mem_singleton.mp ho
    obtain ⟨j, hj, hOther⟩ : ∃ j, j < fam.length ∧ j ≠ i := by
      by_cases hi : i = 0
      · exact ⟨1, hMany, by omega⟩
      · exact ⟨0, by omega, fun h => hi h.symm⟩
    have hAt := List.getElem?_eq_getElem hj
    have hSame := hSeparate.shared (run_string hString _ hOne hRun) hs hAt
    have hNew : (fam.set i u)[i]? = some u :=
      List.getElem?_set_self (List.getElem?_eq_some_iff.mp hs).1
    have hOld : (fam.set i u)[j]? = some fam[j] := by rw [List.getElem?_set_ne hOther.symm, hAt]
    exact (hSeparate'.shared (run_string hString _ hOne hRun') hNew hOld).trans hSame.symm

/-- Copies are independent as long as no write changes a string that has copies, and no longer. -/
theorem clones_independent_iff (P : TextProgram α ω) {c : Val (Obj α)} {t : Store (Obj α)}
    (m : Machine (Obj α) (Returns α ω)) (ht : m.heap[storeOf c]? = some t) (hLibrary : Library c t)
    (acts : List (Act α)) (hIn : ∀ act ∈ acts, act.InBounds c) :
    (Independent P c t m acts ∧ GridMap α ω) ↔ Unshared P c t acts := by
  constructor
  · exact fun h => h.1.unshared
  · refine fun hUnshared => ⟨fun pre hPrefix => ?_, gridMap⟩
    have hRun := run_follows ht hLibrary hIn hUnshared pre hPrefix
    cases hFam : Act.changes P c pre [t] with
    | none =>
      rw [hFam] at hRun
      exact hRun
    | some fam =>
      rw [hFam] at hRun
      obtain ⟨s, hEnd, hKept⟩ := hRun
      exact ⟨s, hEnd, hKept.separate⟩

theorem clones_independent_darray :
    (Independent plainProgram (.darray 0) (.rawvec []) ⟨[], [], [.rawvec []], ⟨[], ()⟩⟩
        [.clone 0, .write 1 (.dPush (.int 7))] ∧ GridMap Unit Unit) ↔
      Unshared plainProgram (.darray 0) (.rawvec []) [.clone 0, .write 1 (.dPush (.int 7))] :=
  @clones_independent_iff Unit Unit plainProgram (.darray 0) (.rawvec []) _ rfl trivial _ fun act hAct => by
    rcases List.mem_cons.mp hAct with rfl | hAct
    · exact trivial
    · rw [List.mem_singleton.mp hAct]
      exact trivial

/-- A character pushed onto the copy of a string is in the original too. -/
theorem stringCopy_shared :
    ¬ (Independent plainProgram (.string (.darray 0)) (.rawvec []) ⟨[], [], [.rawvec []], ⟨[], ()⟩⟩
        [.clone 0, .write 1 (.stringPush (.int 7))] ∧ GridMap Unit Unit) := by
  rintro ⟨hRuns, -⟩
  have hSame := hRuns.unshared [.clone 0] (.write 1 (.stringPush (.int 7))) List.prefix_rfl
    [.rawvec [], .rawvec []] rfl trivial (Nat.lt_succ_self 1) (.rawvec []) (.rawvec [.int 7]) rfl rfl
  cases hSame

end FactorForth.Correctness
