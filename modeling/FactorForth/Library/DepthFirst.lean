import FactorForth.Library.Precedence

/-! Depth-first search in a directed graph that is given by its edges out of each vertex, with the edges
that lead back to a vertex the search is still in: the others and the turned ones lead one way. -/

namespace FactorForth.Library
variable {ν ε : Type}

/-- `visited` are the vertices met, `stack` those of them the search has not left, `back` the edges that
led to one of these. -/
structure Search (ν ε : Type) where
  visited : List ν
  stack : List ν
  back : List ε

namespace Search

def start : Search ν ε := ⟨[], [], []⟩

def enter (s : Search ν ε) (v : ν) : Search ν ε :=
  { s with visited := v :: s.visited, stack := v :: s.stack }

def leave [DecidableEq ν] (s : Search ν ε) (v : ν) : Search ν ε := { s with stack := s.stack.filter fun u => u != v }

/-- A search from `v`, at most `fuel` calls deep. -/
def visit [DecidableEq ν] (outs : ν → List ε) (target : ε → ν) : Nat → ν → Search ν ε → Option (Search ν ε)
  | 0, _, _ => none
  | fuel + 1, v, s =>
    if v ∈ s.visited then some s
    else
      ((outs v).foldlM (fun s e =>
        if target e ∈ s.stack then some { s with back := s.back ++ [e] }
        else visit outs target fuel (target e) s) (s.enter v)).map fun s => s.leave v

variable {outs : ν → List ε} {source target : ε → ν}

/-- An edge leads from the one vertex to the other. -/
def Leads (outs : ν → List ε) (target : ε → ν) (v w : ν) : Prop := ∃ e ∈ outs v, target e = w

/-- `order` has the vertices the search has left, the last one first. -/
structure Ordered (outs : ν → List ε) (source target : ε → ν) (s : Search ν ε) (order : List ν) : Prop where
  nodup : order.Nodup
  left : ∀ v, v ∈ order ↔ v ∈ s.visited ∧ v ∉ s.stack
  entered : ∀ v ∈ s.stack, v ∈ s.visited
  met : ∀ e ∈ s.back, source e ∈ s.visited
  own : ∀ e ∈ s.back, e ∈ outs (source e)
  cycle : ∀ e ∈ s.back, Relation.ReflTransGen (Leads outs target) (target e) (source e)
  on : ∀ v ∈ order, ∀ e ∈ outs v, e ∉ s.back → Before order v (target e)
  round : ∀ v ∈ order, ∀ e ∈ outs v, e ∈ s.back → target e ∈ s.stack ∨ Before order (target e) v

/-- What a part of a search leaves as it was. -/
structure Extends (source : ε → ν) (s s' : Search ν ε) : Prop where
  stack : s'.stack = s.stack
  visited : s.visited ⊆ s'.visited
  back : s.back ⊆ s'.back
  fresh : ∀ e ∈ s'.back, e ∈ s.back ∨ source e ∉ s.visited

theorem Extends.refl (s : Search ν ε) : Extends source s s :=
  ⟨rfl, List.Subset.refl _, List.Subset.refl _, fun _ he => .inl he⟩

theorem Extends.trans {s₁ s₂ s₃ : Search ν ε} (h : Extends source s₁ s₂) (h' : Extends source s₂ s₃) :
    Extends source s₁ s₃ where
  stack := h'.stack.trans h.stack
  visited := List.Subset.trans h.visited h'.visited
  back := List.Subset.trans h.back h'.back
  fresh := by
    intro e he
    rcases h'.fresh e he with hOld | hNew
    · exact h.fresh e hOld
    · exact .inr fun hIn => hNew (h.visited hIn)

/-- How many vertices the search has not met. -/
def unmet [DecidableEq ν] (vertices : List ν) (s : Search ν ε) : Nat := (vertices.filter fun v => v ∉ s.visited).length

theorem unmet_sublist [DecidableEq ν] (vertices : List ν) {s s' : Search ν ε} (h : s.visited ⊆ s'.visited) :
    (vertices.filter fun v => v ∉ s'.visited).Sublist (vertices.filter fun v => v ∉ s.visited) := by
  refine List.monotone_filter_right _ fun v hv => ?_
  simp only [decide_not, Bool.not_eq_true', decide_eq_false_iff_not] at hv ⊢
  exact fun hIn => hv (h hIn)

theorem unmet_mono [DecidableEq ν] (vertices : List ν) {s s' : Search ν ε} (h : s.visited ⊆ s'.visited) :
    s'.unmet vertices ≤ s.unmet vertices := (unmet_sublist vertices h).length_le

theorem unmet_enter [DecidableEq ν] {vertices : List ν} {s : Search ν ε} {v : ν} (hv : v ∈ vertices)
    (hNew : v ∉ s.visited) : (s.enter v).unmet vertices < s.unmet vertices := by
  have hGrows : s.visited ⊆ (s.enter v).visited := List.subset_cons_self _ _
  refine Nat.lt_of_le_of_ne (unmet_mono vertices hGrows) fun hEq => ?_
  have hSame := (unmet_sublist vertices hGrows).eq_of_length hEq
  have hIn : v ∈ vertices.filter fun v => v ∉ s.visited := by
    rw [List.mem_filter]
    exact ⟨hv, decide_eq_true hNew⟩
  rw [← hSame, List.mem_filter] at hIn
  exact of_decide_eq_true hIn.2 List.mem_cons_self

/-- Midway through the edges out of `v`, entered from the search `s₀`: those of `done` are seen to. -/
structure Midway (outs : ν → List ε) (source target : ε → ν) (s₀ : Search ν ε) (v : ν) (done : List ε)
    (s : Search ν ε) (order : List ν) : Prop where
  ordered : Ordered outs source target s order
  stack : s.stack = v :: s₀.stack
  way : ∀ u ∈ s.stack, Relation.ReflTransGen (Leads outs target) u v
  visited : s₀.visited ⊆ s.visited
  back : s₀.back ⊆ s.back
  fresh : ∀ e ∈ s.back, e ∈ s₀.back ∨ source e ∉ s₀.visited
  held : ∀ e ∈ s.back, source e = v → target e ∈ s.stack
  left : ∀ e ∈ done, e ∉ s.back → target e ∈ order

section
variable {s₀ s s' : Search ν ε} {v : ν} {e : ε} {done order : List _} {new : List ν}

theorem Midway.own_visited (h : Midway outs source target s₀ v done s order) : v ∈ s.visited := by
  refine h.ordered.entered v ?_
  rw [h.stack]
  exact List.mem_cons_self

theorem Midway.entered (h : Ordered outs source target s₀ order) (hNew : v ∉ s₀.visited)
    (hWay : ∀ u ∈ s₀.stack, Relation.ReflTransGen (Leads outs target) u v) :
    Midway outs source target s₀ v [] (s₀.enter v) order where
  ordered := {
    nodup := h.nodup
    left := by
      intro u
      rw [h.left u]
      show u ∈ s₀.visited ∧ u ∉ s₀.stack ↔ u ∈ v :: s₀.visited ∧ u ∉ v :: s₀.stack
      rw [List.mem_cons, List.mem_cons, not_or]
      constructor
      · rintro ⟨hIn, hOut⟩
        exact ⟨.inr hIn, fun hEq => hNew (hEq ▸ hIn), hOut⟩
      · rintro ⟨hIn, hNe, hOut⟩
        exact ⟨hIn.resolve_left hNe, hOut⟩
    entered := by
      intro u hu
      rcases List.mem_cons.mp hu with rfl | hu
      · exact List.mem_cons_self
      · exact List.mem_cons_of_mem _ (h.entered u hu)
    met := fun e he => List.mem_cons_of_mem _ (h.met e he)
    own := h.own
    cycle := h.cycle
    on := h.on
    round := fun u hu e he hBack => (h.round u hu e he hBack).imp_left (List.mem_cons_of_mem _) }
  stack := rfl
  way := by
    intro u hu
    rcases List.mem_cons.mp hu with rfl | hu
    · exact .refl
    · exact hWay u hu
  visited := List.subset_cons_self _ _
  back := List.Subset.refl _
  fresh := fun _ he => .inl he
  held := fun e he hv => absurd (hv ▸ h.met e he) hNew
  left := by simp

/-- An edge to a vertex the search is in. -/
theorem Midway.turned (h : Midway outs source target s₀ v done s order) (hNew : v ∉ s₀.visited)
    (hSource : ∀ v, ∀ e ∈ outs v, source e = v) (he : e ∈ outs v) (hOn : target e ∈ s.stack) :
    Midway outs source target s₀ v (done ++ [e]) { s with back := s.back ++ [e] } order where
  ordered := {
    nodup := h.ordered.nodup
    left := h.ordered.left
    entered := h.ordered.entered
    met := by
      intro e' he'
      rcases List.mem_append.mp he' with hOld | hHere
      · exact h.ordered.met e' hOld
      · rw [List.mem_singleton.mp hHere, hSource v e he]
        exact h.own_visited
    own := by
      intro e' he'
      rcases List.mem_append.mp he' with hOld | hHere
      · exact h.ordered.own e' hOld
      · rw [List.mem_singleton.mp hHere, hSource v e he]
        exact he
    cycle := by
      intro e' he'
      rcases List.mem_append.mp he' with hOld | hHere
      · exact h.ordered.cycle e' hOld
      · rw [List.mem_singleton.mp hHere, hSource v e he]
        exact h.way _ hOn
    on := fun u hu e' he' hNot => h.ordered.on u hu e' he' fun hIn => hNot (List.mem_append_left _ hIn)
    round := by
      intro u hu e' he' hBack
      rcases List.mem_append.mp hBack with hOld | hHere
      · exact h.ordered.round u hu e' he' hOld
      · -- `v` is not left yet
        have hOut := ((h.ordered.left u).mp hu).2
        rw [h.stack] at hOut
        have hEq : u = v := by
          rw [← hSource u e' he', List.mem_singleton.mp hHere, hSource v e he]
        exact absurd (hEq ▸ List.mem_cons_self) hOut }
  stack := h.stack
  way := h.way
  visited := h.visited
  back := List.Subset.trans h.back (List.subset_append_left _ _)
  fresh := by
    intro e' he'
    rcases List.mem_append.mp he' with hOld | hHere
    · exact h.fresh e' hOld
    · rw [List.mem_singleton.mp hHere, hSource v e he]
      exact .inr hNew
  held := by
    intro e' he' hv
    rcases List.mem_append.mp he' with hOld | hHere
    · exact h.held e' hOld hv
    · rw [List.mem_singleton.mp hHere]
      exact hOn
  left := by
    intro e' he' hNot
    have hOld : e' ∉ s.back := fun hIn => hNot (List.mem_append_left _ hIn)
    rcases List.mem_append.mp he' with hDone | hHere
    · exact h.left e' hDone hOld
    · exact absurd (List.mem_append_right _ hHere) hNot

/-- An edge to a vertex that the search has been to when the call for it returns. -/
theorem Midway.followed (h : Midway outs source target s₀ v done s order)
    (hOrdered : Ordered outs source target s' (new ++ order)) (hExtends : Extends source s s')
    (hOff : target e ∉ s.stack) (hTarget : target e ∈ s'.visited) :
    Midway outs source target s₀ v (done ++ [e]) s' (new ++ order) where
  ordered := hOrdered
  stack := hExtends.stack.trans h.stack
  way := by
    rw [hExtends.stack]
    exact h.way
  visited := List.Subset.trans h.visited hExtends.visited
  back := List.Subset.trans h.back hExtends.back
  fresh := by
    intro e' he'
    rcases hExtends.fresh e' he' with hOld | hNew
    · exact h.fresh e' hOld
    · exact .inr fun hIn => hNew (h.visited hIn)
  held := by
    intro e' he' hv
    rw [hExtends.stack]
    rcases hExtends.fresh e' he' with hOld | hNew
    · exact h.held e' hOld hv
    · exact absurd (hv ▸ h.own_visited) hNew
  left := by
    intro e' he' hNot
    rcases List.mem_append.mp he' with hDone | hHere
    · exact List.mem_append_right _ (h.left e' hDone fun hIn => hNot (hExtends.back hIn))
    · rw [List.mem_singleton.mp hHere, hOrdered.left, hExtends.stack]
      exact ⟨hTarget, hOff⟩

theorem Midway.leave_stack [DecidableEq ν] (h : Midway outs source target s₀ v done s order) (hOff : v ∉ s₀.stack) :
    (s.leave v).stack = s₀.stack := by
  show s.stack.filter (fun u => u != v) = s₀.stack
  rw [h.stack, List.filter_cons_of_neg (by simp), List.filter_eq_self]
  intro u hu
  rw [bne_iff_ne]
  rintro rfl
  exact hOff hu

/-- With all its edges seen to, `v` is left, in front of all that was left before. -/
theorem Midway.leave [DecidableEq ν] (h : Midway outs source target s₀ v (outs v) s order)
    (hEntered : ∀ u ∈ s₀.stack, u ∈ s₀.visited) (hNew : v ∉ s₀.visited)
    (hLoop : ∀ e ∈ outs v, target e ≠ v) (hSource : ∀ v, ∀ e ∈ outs v, source e = v) :
    Ordered outs source target (s.leave v) (v :: order) := by
  have hOff : v ∉ s₀.stack := fun hIn => hNew (hEntered v hIn)
  have hStack := h.leave_stack hOff
  have hNot : v ∉ order := by
    intro hIn
    have hOut := ((h.ordered.left v).mp hIn).2
    rw [h.stack] at hOut
    exact hOut List.mem_cons_self
  refine ⟨List.nodup_cons.mpr ⟨hNot, h.ordered.nodup⟩, ?_, ?_, h.ordered.met,
    h.ordered.own, h.ordered.cycle, ?_, ?_⟩
  · intro u
    rw [hStack, List.mem_cons, h.ordered.left, h.stack, List.mem_cons, not_or]
    show _ ↔ u ∈ s.visited ∧ u ∉ s₀.stack
    constructor
    · rintro (rfl | ⟨hIn, -, hOut⟩)
      · exact ⟨h.own_visited, hOff⟩
      · exact ⟨hIn, hOut⟩
    · rintro ⟨hIn, hOut⟩
      by_cases hEq : u = v
      · exact .inl hEq
      · exact .inr ⟨hIn, hEq, hOut⟩
  · intro u hu
    rw [hStack] at hu
    exact h.visited (hEntered u hu)
  · intro u hu e he hBack
    rcases List.mem_cons.mp hu with rfl | hu
    · exact .head (h.left e he hBack)
    · exact (h.ordered.on u hu e he hBack).behind [v]
  · intro u hu e he hBack
    rw [hStack]
    rcases List.mem_cons.mp hu with rfl | hu
    · have hHeld := h.held e hBack (hSource u e he)
      rw [h.stack] at hHeld
      exact .inl ((List.mem_cons.mp hHeld).resolve_left (hLoop e he))
    · rcases h.ordered.round u hu e he hBack with hOn | hBefore
      · rw [h.stack] at hOn
        rcases List.mem_cons.mp hOn with hEq | hOn
        · rw [hEq]
          exact .inr (.head hu)
        · exact .inl hOn
      · exact .inr (hBefore.behind [v])

end

section
variable [DecidableEq ν] (hSource : ∀ v, ∀ e ∈ outs v, source e = v) (hLoop : ∀ v, ∀ e ∈ outs v, target e ≠ v)
  {vertices : List ν} (hClosed : ∀ v, ∀ e ∈ outs v, target e ∈ vertices)
include hSource hLoop hClosed

/-- A call with enough fuel returns, and leaves what it has entered. -/
theorem visit_spec (fuel : Nat) : ∀ (v : ν) (s : Search ν ε) (order : List ν), v ∈ vertices →
    s.unmet vertices < fuel → Ordered outs source target s order →
    (∀ u ∈ s.stack, Relation.ReflTransGen (Leads outs target) u v) →
    ∃ s' new, visit outs target fuel v s = some s' ∧ Ordered outs source target s' (new ++ order) ∧
      Extends source s s' ∧ v ∈ s'.visited := by
  induction fuel with
  | zero => exact fun v s order _ hFuel _ _ => absurd hFuel (Nat.not_lt_zero _)
  | succ fuel ih =>
    intro v s₀ order hv hFuel hOrdered hWay
    unfold visit
    by_cases hOld : v ∈ s₀.visited
    · rw [if_pos hOld]
      exact ⟨s₀, [], rfl, hOrdered, .refl s₀, hOld⟩
    have hLess : (s₀.enter v).unmet vertices < fuel :=
      Nat.lt_of_lt_of_le (unmet_enter hv hOld) (Nat.le_of_lt_succ hFuel)
    have hSteps : ∀ todo done s order, outs v = done ++ todo → Midway outs source target s₀ v done s order →
        ∃ s' new, todo.foldlM (fun s e =>
            if target e ∈ s.stack then some { s with back := s.back ++ [e] }
            else visit outs target fuel (target e) s) s = some s' ∧
          Midway outs source target s₀ v (outs v) s' (new ++ order) := by
      intro todo
      induction todo with
      | nil =>
        intro done s order hEq hMid
        rw [List.append_nil] at hEq
        exact ⟨s, [], rfl, hEq ▸ hMid⟩
      | cons e todo ihTodo =>
        intro done s order hEq hMid
        have he : e ∈ outs v := hEq ▸ List.mem_append_right _ List.mem_cons_self
        have hNext : outs v = (done ++ [e]) ++ todo := by
          rw [hEq, List.append_assoc]
          rfl
        rw [List.foldlM_cons]
        by_cases hOn : target e ∈ s.stack
        · rw [if_pos hOn]
          exact ihTodo _ _ _ hNext (hMid.turned hOld hSource he hOn)
        · have hEnough : s.unmet vertices < fuel := by
            refine Nat.lt_of_le_of_lt (unmet_mono vertices ?_) hLess
            exact List.cons_subset.mpr ⟨hMid.own_visited, hMid.visited⟩
          obtain ⟨s₁, new₁, hCall, hOrdered₁, hExtends, hTarget⟩ :=
            ih (target e) s order (hClosed v e he) hEnough hMid.ordered
              fun u hu => (hMid.way u hu).tail ⟨e, he, rfl⟩
          rw [if_neg hOn, hCall]
          obtain ⟨s', new, hRest, hEnd⟩ :=
            ihTodo _ _ _ hNext (hMid.followed hOrdered₁ hExtends hOn hTarget)
          refine ⟨s', new ++ new₁, hRest, ?_⟩
          rwa [List.append_assoc]
    obtain ⟨s, new, hRun, hMid⟩ := hSteps (outs v) [] (s₀.enter v) order rfl
      (.entered hOrdered hOld hWay)
    rw [if_neg hOld, hRun]
    refine ⟨s.leave v, v :: new, rfl, hMid.leave hOrdered.entered hOld (hLoop v) hSource, ?_, hMid.own_visited⟩
    exact ⟨hMid.leave_stack fun hIn => hOld (hOrdered.entered v hIn), hMid.visited, hMid.back, hMid.fresh⟩

/-- Searches from one vertex after the other. -/
theorem visits_spec (fuel : Nat) (hFuel : vertices.length < fuel) : ∀ (vs : List ν) (s : Search ν ε)
    (order : List ν), vs ⊆ vertices → Ordered outs source target s order → s.stack = [] →
    ∃ s' new, vs.foldlM (fun s v => visit outs target fuel v s) s = some s' ∧
      Ordered outs source target s' (new ++ order) ∧ Extends source s s' ∧ vs ⊆ s'.visited := by
  intro vs
  induction vs with
  | nil => exact fun s order _ hOrdered _ => ⟨s, [], rfl, hOrdered, .refl s, List.nil_subset _⟩
  | cons v vs ih =>
    intro s order hIn hOrdered hStack
    obtain ⟨hv, hvs⟩ := List.cons_subset.mp hIn
    have hEnough : s.unmet vertices < fuel := Nat.lt_of_le_of_lt (List.length_filter_le _ _) hFuel
    obtain ⟨s₁, new₁, hCall, hOrdered₁, hExtends₁, hOwn⟩ :=
      visit_spec hSource hLoop hClosed fuel v s order hv hEnough hOrdered (by simp [hStack])
    obtain ⟨s', new, hRest, hOrdered', hExtends, hAll⟩ := ih s₁ (new₁ ++ order) hvs hOrdered₁
      (hExtends₁.stack.trans hStack)
    refine ⟨s', new ++ new₁, ?_, ?_, hExtends₁.trans hExtends, ?_⟩
    · rw [List.foldlM_cons, hCall]
      exact hRest
    · rwa [List.append_assoc]
    · exact List.cons_subset.mpr ⟨hExtends.visited hOwn, hAll⟩

/-- A search of the whole graph finds edges that point the other way than all the others, in an order in
which it has left the vertices. -/
theorem search_spec (fuel : Nat) (hFuel : vertices.length < fuel) (vs : List ν) (hIn : vs ⊆ vertices)
    (hAll : vertices ⊆ vs) :
    ∃ s', vs.foldlM (fun s v => visit outs target fuel v s) start = some s' ∧
      (∀ e ∈ s'.back, e ∈ outs (source e) ∧ Relation.ReflTransGen (Leads outs target) (target e) (source e)) ∧
      ∃ order : List ν, order.Nodup ∧ ∀ v ∈ vertices, ∀ e ∈ outs v,
        (e ∉ s'.back → Before order v (target e)) ∧ (e ∈ s'.back → Before order (target e) v) := by
  have hStart : Ordered outs source target start [] := ⟨.nil, by simp [start], by simp [start],
    by simp [start], by simp [start], by simp [start], by simp, by simp⟩
  obtain ⟨s', order, hRun, hOrdered, hExtends, hVisited⟩ :=
    visits_spec hSource hLoop hClosed fuel hFuel vs start [] hIn hStart rfl
  rw [List.append_nil] at hOrdered
  have hStack : s'.stack = [] := hExtends.stack
  refine ⟨s', hRun, fun e he => ⟨hOrdered.own e he, hOrdered.cycle e he⟩, order, hOrdered.nodup, fun v hv e he => ?_⟩
  have hLeft : v ∈ order := by
    rw [hOrdered.left, hStack]
    exact ⟨hVisited (hAll hv), List.not_mem_nil⟩
  refine ⟨hOrdered.on v hLeft e he, fun hBack => ?_⟩
  have hRound := hOrdered.round v hLeft e he hBack
  rw [hStack] at hRound
  exact hRound.resolve_left List.not_mem_nil

end

end Search
end FactorForth.Library
