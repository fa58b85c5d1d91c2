import FactorForth.Compiler.Driver
import Mathlib.Data.List.Perm.Subperm

/-! NEEDS. The reference is the tree of inclusions read from left to right: an expansion is the splice
of the tree in which a file is opened exactly where its key comes up for the first time. -/

namespace FactorForth.Correctness
open FactorForth.Library FactorForth.Compiler

/-- The items of a file in their order. A NEEDS either opens a file, with the tree of that file, or is
passed over. -/
inductive Inclusion where
  | done
  | own (item : Item) (rest : Inclusion)
  | passed (key : String) (rest : Inclusion)
  | opened (key : String) (inside rest : Inclusion)

namespace Inclusion

/-- Each opened file in place of its NEEDS. -/
def splice : Inclusion → List Item
  | done => []
  | own item rest => item :: rest.splice
  | passed _ rest => rest.splice
  | opened _ inside rest => inside.splice ++ rest.splice

/-- The keys of all NEEDS from left to right, and whether they open their file. -/
def needs : Inclusion → List (String × Bool)
  | done => []
  | own _ rest => rest.needs
  | passed key rest => (key, false) :: rest.needs
  | opened key inside rest => (key, true) :: (inside.needs ++ rest.needs)

/-- The files that are opened. -/
def files (t : Inclusion) : List String := (t.needs.filter Prod.snd).map Prod.fst

end Inclusion

open Inclusion

/-- The tree says what stands in the items and in the files below them; which NEEDS open is left to
it. -/
inductive Fits (host : Host) (fs : FileSystem) : Option String → List Item → Inclusion → Prop
  | done {base : Option String} : Fits host fs base [] .done
  | own {base : Option String} {item : Item} {items : List Item} {rest : Inclusion} :
    (∀ path span, item ≠ .needs path span) → Fits host fs base items rest →
    Fits host fs base (item :: items) (.own item rest)
  | passed {base : Option String} {path : String} {span : Span} {items : List Item}
    {rest : Inclusion} : Fits host fs base items rest →
    Fits host fs base (.needs path span :: items) (.passed (fs.key (needsPath fs base path)) rest)
  | opened {base : Option String} {path contents : String} {span : Span} {sub items : List Item}
    {inside rest : Inclusion} :
    fs.readToString (needsPath fs base path) = .ok contents →
    compileItems host contents = .ok sub →
    Fits host fs (fs.parent (needsPath fs base path)) sub inside → Fits host fs base items rest →
    Fits host fs base (.needs path span :: items)
      (.opened (fs.key (needsPath fs base path)) inside rest)

/-- A NEEDS opens its file if and only if the file was not included before and no NEEDS in front of it
has the same key. -/
def FirstVisits (included : List String) (needs : List (String × Bool)) : Prop :=
  ∀ before key opens after, needs = before ++ (key, opens) :: after →
    (opens = true ↔ key ∉ included ∧ key ∉ before.map Prod.fst)

namespace FirstVisits

theorem nil {included : List String} : FirstVisits included [] := by
  intro before key opens after h
  simp at h

theorem congr {included included' : List String} {needs : List (String × Bool)}
    (h : ∀ k, k ∈ included ↔ k ∈ included') :
    FirstVisits included needs ↔ FirstVisits included' needs := by
  unfold FirstVisits
  simp only [h]

theorem append {included : List String} {xs ys : List (String × Bool)} :
    FirstVisits included (xs ++ ys) ↔
      FirstVisits included xs ∧ FirstVisits (xs.map Prod.fst ++ included) ys := by
  constructor
  · intro h
    constructor
    · intro before key opens after hEq
      exact h before key opens (after ++ ys) (by simp [hEq])
    · intro before key opens after hEq
      have hAll := h (xs ++ before) key opens after (by simp [hEq])
      rw [hAll, List.map_append, List.mem_append, List.mem_append, not_or, not_or]
      constructor
      · rintro ⟨hInc, hXs, hBefore⟩
        exact ⟨⟨hXs, hInc⟩, hBefore⟩
      · rintro ⟨⟨hXs, hInc⟩, hBefore⟩
        exact ⟨hInc, hXs, hBefore⟩
  · rintro ⟨hXs, hYs⟩ before key opens after hEq
    rcases List.append_eq_append_iff.mp hEq with ⟨mid, hBefore, hRest⟩ | ⟨mid, hXsEq, hRest⟩
    · have hSplit := hYs mid key opens after hRest
      rw [hSplit, hBefore, List.map_append, List.mem_append, List.mem_append, not_or, not_or]
      constructor
      · rintro ⟨⟨hX, hInc⟩, hMid⟩
        exact ⟨hInc, hX, hMid⟩
      · rintro ⟨hInc, hX, hMid⟩
        exact ⟨⟨hX, hInc⟩, hMid⟩
    · match mid, hXsEq, hRest with
      | [], hXsEq, hRest =>
        rw [List.append_nil] at hXsEq
        have hSplit := hYs [] key opens after (by simpa using hRest.symm)
        rw [hSplit, List.mem_append, not_or, hXsEq]
        simp only [List.map_nil, List.not_mem_nil, not_false_eq_true, and_true]
        exact And.comm
      | p :: mid, hXsEq, hRest =>
        obtain ⟨rfl, _⟩ := List.cons.inj hRest
        exact hXs before key opens mid hXsEq

theorem cons {included : List String} {key : String} {opens : Bool} {ys : List (String × Bool)} :
    FirstVisits included ((key, opens) :: ys) ↔
      (opens = true ↔ key ∉ included) ∧ FirstVisits (key :: included) ys := by
  have hSingle : FirstVisits included [(key, opens)] ↔ (opens = true ↔ key ∉ included) := by
    constructor
    · intro h
      simpa using h [] key opens [] rfl
    · intro h before key' opens' after hEq
      match before, hEq with
      | [], hEq =>
        obtain ⟨hPair, _⟩ := List.cons.inj hEq
        obtain ⟨rfl, rfl⟩ := Prod.mk.inj hPair
        simpa using h
      | _ :: before, hEq =>
        obtain ⟨_, hNil⟩ := List.cons.inj hEq
        simp at hNil
  rw [show (key, opens) :: ys = [(key, opens)] ++ ys from rfl, append, hSingle]
  rfl

/-- What is opened is opened once, and was not included before. -/
theorem opened_nodup {included : List String} {needs : List (String × Bool)}
    (h : FirstVisits included needs) :
    ((needs.filter Prod.snd).map Prod.fst).Nodup ∧
      ∀ k ∈ (needs.filter Prod.snd).map Prod.fst, k ∉ included := by
  induction needs generalizing included with
  | nil => simp
  | cons p needs ih =>
    obtain ⟨key, opens⟩ := p
    obtain ⟨hFirst, hRest⟩ := cons.mp h
    obtain ⟨hNodup, hFresh⟩ := ih hRest
    cases opens with
    | false =>
      simp only [List.filter_cons, Bool.false_eq_true, if_false]
      exact ⟨hNodup, fun k hk hIn => hFresh k hk (List.mem_cons_of_mem _ hIn)⟩
    | true =>
      simp only [List.filter_cons, if_true, List.map_cons, List.nodup_cons]
      refine ⟨⟨fun hIn => hFresh key hIn List.mem_cons_self, hNodup⟩, ?_⟩
      intro k hk
      rcases List.mem_cons.mp hk with hEq | hk
      · rw [hEq]
        exact hFirst.mp rfl
      · exact fun hIn => hFresh k hk (List.mem_cons_of_mem _ hIn)

/-- Every key that comes up is opened or was included before. -/
theorem covered {included : List String} {needs : List (String × Bool)}
    (h : FirstVisits included needs) (k : String) :
    (k ∈ included ∨ k ∈ needs.map Prod.fst) ↔
      k ∈ included ∨ k ∈ (needs.filter Prod.snd).map Prod.fst := by
  induction needs generalizing included with
  | nil => simp
  | cons p needs ih =>
    obtain ⟨key, opens⟩ := p
    obtain ⟨hFirst, hRest⟩ := cons.mp h
    have hTail := ih hRest
    rw [List.mem_cons] at hTail
    cases opens with
    | false =>
      have hIn : key ∈ included := by
        by_contra hOut
        exact absurd (hFirst.mpr hOut) (by simp)
      simp only [List.filter_cons, Bool.false_eq_true, if_false, List.map_cons, List.mem_cons]
      constructor
      · rintro (hk | hk | hk)
        · exact .inl hk
        · exact .inl (hk ▸ hIn)
        · rcases hTail.mp (.inr hk) with (hk | hk) | hk
          · exact .inl (hk ▸ hIn)
          · exact .inl hk
          · exact .inr hk
      · rintro (hk | hk)
        · exact .inl hk
        · rcases hTail.mpr (.inr hk) with (hk | hk) | hk
          · exact .inl (hk ▸ hIn)
          · exact .inl hk
          · exact .inr (.inr hk)
    | true =>
      simp only [List.filter_cons, if_true, List.map_cons, List.mem_cons]
      constructor
      · rintro (hk | hk | hk)
        · exact .inl hk
        · exact .inr (.inl hk)
        · rcases hTail.mp (.inr hk) with (hk | hk) | hk
          · exact .inr (.inl hk)
          · exact .inl hk
          · exact .inr (.inr hk)
      · rintro (hk | hk | hk)
        · exact .inl hk
        · exact .inr (.inl hk)
        · rcases hTail.mpr (.inr hk) with (hk | hk) | hk
          · exact .inr (.inl hk)
          · exact .inl hk
          · exact .inr (.inr hk)

end FirstVisits

section
variable (host : Host) (fs : FileSystem)

/-- The tree of an expansion: it fits the items, opens at first visits, and its keys are what the
expansion adds to the included files. -/
structure IsTree (base : Option String) (items : List Item) (included : List String)
    (t : Inclusion) : Prop where
  fits : Fits host fs base items t
  first : FirstVisits included t.needs

variable {host fs}

theorem IsTree.cons_own {base : Option String} {item : Item} {items : List Item}
    {included : List String} {t : Inclusion} (hi : ∀ path span, item ≠ .needs path span) :
    IsTree host fs base (item :: items) included t ↔
      ∃ rest, t = .own item rest ∧ IsTree host fs base items included rest := by
  constructor
  · rintro ⟨hFits, hFirst⟩
    cases hFits with
    | own _ hRest => exact ⟨_, rfl, hRest, hFirst⟩
    | passed _ => exact absurd rfl (hi _ _)
    | opened _ _ _ _ => exact absurd rfl (hi _ _)
  · rintro ⟨rest, rfl, hRest⟩
    exact ⟨.own hi hRest.fits, hRest.first⟩

theorem IsTree.cons_passed {base : Option String} {path : String} {span : Span}
    {items : List Item} {included : List String} {t : Inclusion}
    (hk : fs.key (needsPath fs base path) ∈ included) :
    IsTree host fs base (.needs path span :: items) included t ↔
      ∃ rest, t = .passed (fs.key (needsPath fs base path)) rest ∧
        IsTree host fs base items included rest := by
  have hSame : ∀ k, k ∈ fs.key (needsPath fs base path) :: included ↔ k ∈ included := by
    intro k
    rw [List.mem_cons]
    exact ⟨fun h => h.elim (fun hEq => hEq ▸ hk) id, .inr⟩
  constructor
  · rintro ⟨hFits, hFirst⟩
    cases hFits with
    | own hi _ => exact absurd rfl (hi _ _)
    | passed hRest => exact ⟨_, rfl, hRest, (FirstVisits.congr hSame).mp (FirstVisits.cons.mp hFirst).2⟩
    | opened _ _ _ _ => exact absurd hk ((FirstVisits.cons.mp hFirst).1.mp rfl)
  · rintro ⟨rest, rfl, hRest⟩
    refine ⟨.passed hRest.fits, FirstVisits.cons.mpr ⟨?_, (FirstVisits.congr hSame).mpr hRest.first⟩⟩
    simp [hk]

theorem IsTree.cons_opened {base : Option String} {path : String} {span : Span}
    {items : List Item} {included : List String} {t : Inclusion}
    (hk : fs.key (needsPath fs base path) ∉ included) :
    IsTree host fs base (.needs path span :: items) included t ↔
      ∃ contents sub inside rest, t = .opened (fs.key (needsPath fs base path)) inside rest ∧
        fs.readToString (needsPath fs base path) = .ok contents ∧
        compileItems host contents = .ok sub ∧
        IsTree host fs (fs.parent (needsPath fs base path)) sub
          (fs.key (needsPath fs base path) :: included) inside ∧
        IsTree host fs base items
          (inside.needs.map Prod.fst ++ fs.key (needsPath fs base path) :: included) rest := by
  constructor
  · rintro ⟨hFits, hFirst⟩
    cases hFits with
    | own hi _ => exact absurd rfl (hi _ _)
    | passed _ => exact absurd ((FirstVisits.cons.mp hFirst).1.mpr hk) (by simp)
    | opened hRead hSub hInside hRest =>
      obtain ⟨_, hBelow⟩ := FirstVisits.cons.mp hFirst
      obtain ⟨hIn, hAfter⟩ := FirstVisits.append.mp hBelow
      exact ⟨_, _, _, _, rfl, hRead, hSub, ⟨hInside, hIn⟩, hRest, hAfter⟩
  · rintro ⟨contents, sub, inside, rest, rfl, hRead, hSub, hInside, hRest⟩
    refine ⟨.opened hRead hSub hInside.fits hRest.fits, FirstVisits.cons.mpr ⟨?_, ?_⟩⟩
    · simp [hk]
    · exact FirstVisits.append.mpr ⟨hInside.first, hRest.first⟩

end

/-- The outcome of an expansion against its tree. -/
structure Expands (host : Host) (fs : FileSystem) (base : Option String) (items : List Item)
    (included : List String) (docs : Dict String WordDoc) : Prop where
  /-- A successful expansion has a tree, and is its splice. -/
  sound : ∀ out docs', (expandNeeds host fs base items included docs).result = .ok (out, docs') →
    ∃ t, IsTree host fs base items included t ∧ t.splice = out ∧
      ∀ k, k ∈ (expandNeeds host fs base items included docs).after ↔
        k ∈ included ∨ k ∈ t.needs.map Prod.fst
  /-- Where there is a tree, the expansion succeeds. -/
  complete : ∀ t, IsTree host fs base items included t →
    ∃ docs', (expandNeeds host fs base items included docs).result = .ok (t.splice, docs') ∧
      ∀ k, k ∈ (expandNeeds host fs base items included docs).after ↔
        k ∈ included ∨ k ∈ t.needs.map Prod.fst

section
variable {host : Host} {fs : FileSystem} {base : Option String} {included : List String}
  {items : List Item} {docs : Dict String WordDoc}

theorem expands_nil : Expands host fs base [] included docs := by
  have hEq := expandNeeds_nil host fs base included docs
  constructor
  · intro out docs' h
    rw [hEq] at h ⊢
    obtain ⟨rfl, _⟩ := Prod.mk.inj (Except.ok.inj h)
    exact ⟨.done, ⟨.done, FirstVisits.nil⟩, rfl, by simp [needs]⟩
  · rintro t ⟨hFits, _⟩
    cases hFits
    rw [hEq]
    exact ⟨docs, rfl, by simp [needs]⟩

theorem expands_own {item : Item} (hi : ∀ path span, item ≠ .needs path span)
    (hRest : Expands host fs base items included docs) :
    Expands host fs base (item :: items) included docs := by
  have hEq := expandNeeds_other host fs hi base items included docs
  constructor
  · intro out docs' h
    rw [hEq] at h ⊢
    dsimp only at h
    cases hResult : (expandNeeds host fs base items included docs).result with
    | error e =>
      rw [hResult] at h
      cases h
    | ok r =>
      rw [hResult] at h
      obtain ⟨rfl, rfl⟩ := Prod.mk.inj (Except.ok.inj h)
      obtain ⟨t, hTree, hSplice, hAfter⟩ := hRest.sound r.1 r.2 hResult
      exact ⟨.own item t, (IsTree.cons_own hi).mpr ⟨t, rfl, hTree⟩, by rw [splice, hSplice], hAfter⟩
  · intro t hTree
    obtain ⟨rest, rfl, hBelow⟩ := (IsTree.cons_own hi).mp hTree
    obtain ⟨docs', hResult, hAfter⟩ := hRest.complete rest hBelow
    rw [hEq]
    refine ⟨docs', ?_, hAfter⟩
    simp only [hResult, Except.map, splice]

theorem expands_passed {path : String} {span : Span}
    (hk : fs.key (needsPath fs base path) ∈ included)
    (hRest : Expands host fs base items included docs) :
    Expands host fs base (.needs path span :: items) included docs := by
  have hEq := expandNeeds_included host fs hk span items docs
  have hSame : ∀ t : Inclusion, ∀ k, (k ∈ included ∨ k ∈ t.needs.map Prod.fst) ↔
      k ∈ included ∨ k ∈ (passed (fs.key (needsPath fs base path)) t).needs.map Prod.fst := by
    intro t k
    simp only [needs, List.map_cons, List.mem_cons]
    constructor
    · rintro (h | h)
      · exact .inl h
      · exact .inr (.inr h)
    · rintro (h | h | h)
      · exact .inl h
      · exact .inl (h ▸ hk)
      · exact .inr h
  constructor
  · intro out docs' h
    rw [hEq] at h ⊢
    obtain ⟨t, hTree, hSplice, hAfter⟩ := hRest.sound out docs' h
    exact ⟨.passed _ t, (IsTree.cons_passed hk).mpr ⟨t, rfl, hTree⟩, hSplice,
      fun k => (hAfter k).trans (hSame t k)⟩
  · intro t hTree
    obtain ⟨rest, rfl, hBelow⟩ := (IsTree.cons_passed hk).mp hTree
    obtain ⟨docs', hResult, hAfter⟩ := hRest.complete rest hBelow
    rw [hEq]
    exact ⟨docs', hResult, fun k => (hAfter k).trans (hSame rest k)⟩

theorem firstVisits_after {included' after : List String} {inner : List (String × Bool)}
    (hAfter : ∀ k, k ∈ after ↔ k ∈ included' ∨ k ∈ inner.map Prod.fst) :
    ∀ k, k ∈ after ↔ k ∈ inner.map Prod.fst ++ included' := by
  intro k
  rw [hAfter, List.mem_append]
  exact or_comm

/-- The file that is opened, and what stands behind its NEEDS with all its files included. -/
theorem expands_opened {path contents : String} {span : Span} {sub : List Item}
    (hk : fs.key (needsPath fs base path) ∉ included)
    (hr : fs.readToString (needsPath fs base path) = .ok contents)
    (hc : compileItems host contents = .ok sub)
    (hInside : Expands host fs (fs.parent (needsPath fs base path)) sub
      (fs.key (needsPath fs base path) :: included) (mergeDocs docs (buildDocs host sub contents)))
    (hRest : ∀ docs', Expands host fs base items
      (expandNeeds host fs (fs.parent (needsPath fs base path)) sub
        (fs.key (needsPath fs base path) :: included)
        (mergeDocs docs (buildDocs host sub contents))).after docs') :
    Expands host fs base (.needs path span :: items) included docs := by
  obtain ⟨hFail, hGood⟩ := expandNeeds_read host fs hk hr hc span items docs
  have hKeys : ∀ inside rest : Inclusion, ∀ k,
      ((k ∈ fs.key (needsPath fs base path) :: included ∨ k ∈ inside.needs.map Prod.fst) ∨
        k ∈ rest.needs.map Prod.fst) ↔ k ∈ included ∨
        k ∈ (opened (fs.key (needsPath fs base path)) inside rest).needs.map Prod.fst := by
    intro inside rest k
    simp only [needs, List.map_cons, List.map_append, List.mem_cons, List.mem_append]
    grind
  constructor
  · -- what is spliced comes from a tree of the files that were opened
    intro out docs' h
    cases hRead : (expandNeeds host fs (fs.parent (needsPath fs base path)) sub
        (fs.key (needsPath fs base path) :: included)
        (mergeDocs docs (buildDocs host sub contents))).result with
    | error e =>
      rw [(hFail e hRead).1] at h
      cases h
    | ok r =>
      obtain ⟨hResult, hAfterAll⟩ := hGood r.1 r.2 hRead
      obtain ⟨inside, hInsideTree, hInsideSplice, hInsideAfter⟩ := hInside.sound r.1 r.2 hRead
      rw [hResult] at h
      cases hBehind : (expandNeeds host fs base items _ r.2).result with
      | error e =>
        rw [hBehind] at h
        cases h
      | ok q =>
        rw [hBehind] at h
        obtain ⟨rfl, rfl⟩ := Prod.mk.inj (Except.ok.inj h)
        obtain ⟨rest, hRestTree, hRestSplice, hRestAfter⟩ := (hRest r.2).sound q.1 q.2 hBehind
        have hFirst := (FirstVisits.congr (firstVisits_after hInsideAfter)).mp hRestTree.first
        refine ⟨.opened _ inside rest, (IsTree.cons_opened hk).mpr
          ⟨contents, sub, inside, rest, rfl, hr, hc, hInsideTree, hRestTree.fits, hFirst⟩, ?_, ?_⟩
        · rw [splice, hInsideSplice, hRestSplice]
        · intro k
          rw [hAfterAll, hRestAfter, hInsideAfter]
          exact hKeys inside rest k
  · -- such a tree is what the expansion finds, file by file
    intro t hTree
    obtain ⟨contents', sub', inside, rest, rfl, hr', hc', hInsideTree, hRestTree⟩ :=
      (IsTree.cons_opened hk).mp hTree
    obtain rfl := Except.ok.inj (hr'.symm.trans hr)
    obtain rfl := Except.ok.inj (hc'.symm.trans hc)
    obtain ⟨docs₁, hRead, hInsideAfter⟩ := hInside.complete inside hInsideTree
    obtain ⟨hResult, hAfterAll⟩ := hGood _ docs₁ hRead
    have hFirst := (FirstVisits.congr (firstVisits_after hInsideAfter)).mpr hRestTree.first
    obtain ⟨docs₂, hBehind, hRestAfter⟩ := (hRest docs₁).complete rest ⟨hRestTree.fits, hFirst⟩
    refine ⟨docs₂, ?_, ?_⟩
    · rw [hResult, hBehind]
      rfl
    · intro k
      rw [hAfterAll, hRestAfter, hInsideAfter]
      exact hKeys inside rest k

theorem expands_unreadable {path e : String} {span : Span}
    (hk : fs.key (needsPath fs base path) ∉ included)
    (hr : fs.readToString (needsPath fs base path) = .error e) :
    Expands host fs base (.needs path span :: items) included docs := by
  have hEq := expandNeeds_unreadable host fs hk hr span items docs
  constructor
  · intro out docs' h
    rw [hEq] at h
    cases h
  · intro t hTree
    obtain ⟨contents, _, _, _, _, hr', _⟩ := (IsTree.cons_opened hk).mp hTree
    exact absurd (hr'.symm.trans hr) (by simp)

theorem expands_malformed {path contents e : String} {span : Span}
    (hk : fs.key (needsPath fs base path) ∉ included)
    (hr : fs.readToString (needsPath fs base path) = .ok contents)
    (hc : compileItems host contents = .error e) :
    Expands host fs base (.needs path span :: items) included docs := by
  have hEq := expandNeeds_malformed host fs hk hr hc span items docs
  constructor
  · intro out docs' h
    rw [hEq] at h
    cases h
  · intro t hTree
    obtain ⟨contents', sub, _, _, _, hr', hc', _⟩ := (IsTree.cons_opened hk).mp hTree
    obtain rfl := Except.ok.inj (hr'.symm.trans hr)
    exact absurd (hc'.symm.trans hc) (by simp)

end

/-- The files left unread go down with each file that is opened, the items with each other one. -/
theorem expands (host : Host) (fs : FileSystem) (base : Option String) (items : List Item)
    (included : List String) (docs : Dict String WordDoc) :
    Expands host fs base items included docs := by
  match items with
  | [] => exact expands_nil
  | item :: items =>
    by_cases hi : ∀ path span, item ≠ .needs path span
    · exact expands_own hi (expands host fs base items included docs)
    · obtain ⟨path, span, rfl⟩ : ∃ path span, item = .needs path span := by
        simpa using hi
      by_cases hk : fs.key (needsPath fs base path) ∈ included
      · exact expands_passed hk (expands host fs base items included docs)
      · cases hr : fs.readToString (needsPath fs base path) with
        | error e => exact expands_unreadable hk hr
        | ok contents =>
          cases hc : compileItems host contents with
          | error e => exact expands_malformed hk hr hc
          | ok sub =>
            have hLess : fs.unread (fs.key (needsPath fs base path) :: included) <
                fs.unread included := FileSystem.unread_cons hr (by simpa using hk)
            have hGrows : fs.unread (expandNeeds host fs (fs.parent (needsPath fs base path)) sub
                (fs.key (needsPath fs base path) :: included)
                (mergeDocs docs (buildDocs host sub contents))).after ≤
                fs.unread (fs.key (needsPath fs base path) :: included) :=
              fs.unread_mono (Expansion.grows _)
            refine expands_opened hk hr hc (expands host fs _ sub _ _) ?_
            exact fun docs' => expands host fs base items _ docs'
termination_by (fs.unread included, items.length)
decreasing_by
  · exact Prod.Lex.right _ (by simp)
  · exact Prod.Lex.right _ (by simp)
  · exact Prod.Lex.left _ _ hLess
  · exact Prod.Lex.left _ _ (Nat.lt_of_le_of_lt hGrows hLess)

theorem Fits.files_exist {host : Host} {fs : FileSystem} {base : Option String}
    {items : List Item} {t : Inclusion} (h : Fits host fs base items t) :
    ∀ k ∈ t.files, k ∈ fs.files.map Prod.fst := by
  induction h with
  | done => simp [files, needs]
  | own _ _ ih => exact ih
  | passed _ ih => simpa [files, needs] using ih
  | @opened base path contents _ sub _ inside rest hr _ _ _ ihInside ihRest =>
    intro k hk
    have hFiles : (Inclusion.opened (fs.key (needsPath fs base path)) inside rest).files =
        fs.key (needsPath fs base path) :: (inside.files ++ rest.files) := by
      simp [files, needs]
    rw [hFiles, List.mem_cons, List.mem_append] at hk
    rcases hk with hEq | hk | hk
    · have hMem := Dict.mem_of_lookup (FileSystem.readToString_key hr)
      rw [hEq]
      exact List.mem_map_of_mem hMem
    · exact ihInside k hk
    · exact ihRest k hk

/-- What holds of all parsed items holds of a splice. -/
theorem Fits.splice_parsed {host : Host} {fs : FileSystem} {P : Item → Prop}
    (hParsed : ∀ contents items, compileItems host contents = .ok items → ∀ item ∈ items, P item)
    {base : Option String} {items : List Item} {t : Inclusion} (h : Fits host fs base items t)
    (hItems : ∀ item ∈ items, P item) : ∀ item ∈ t.splice, P item := by
  induction h with
  | done => exact fun item hItem => nomatch hItem
  | own _ _ ih =>
    intro item hItem
    rcases List.mem_cons.mp hItem with rfl | hTail
    · exact hItems _ List.mem_cons_self
    · exact ih (fun other hOther => hItems other (List.mem_cons_of_mem _ hOther)) item hTail
  | passed _ ih => exact ih fun other hOther => hItems other (List.mem_cons_of_mem _ hOther)
  | opened _ hSub _ _ ihInside ihRest =>
    intro item hItem
    rcases List.mem_append.mp hItem with hInside | hRest
    · exact ihInside (hParsed _ _ hSub) item hInside
    · exact ihRest (fun other hOther => hItems other (List.mem_cons_of_mem _ hOther)) item hRest

/-- The number of files an expansion opens is bounded by the files that were not included. -/
theorem IsTree.files_length {host : Host} {fs : FileSystem} {base : Option String}
    {items : List Item} {included : List String} {t : Inclusion}
    (h : IsTree host fs base items included t) : t.files.length ≤ fs.unread included := by
  obtain ⟨hNodup, hFresh⟩ := h.first.opened_nodup
  have hSub : t.files ⊆ (fs.files.filter fun p => !included.contains p.1).map Prod.fst := by
    intro k hk
    obtain ⟨p, hp, rfl⟩ := List.mem_map.mp (h.fits.files_exist k hk)
    refine List.mem_map_of_mem (List.mem_filter.mpr ⟨hp, ?_⟩)
    simpa using hFresh p.1 hk
  have hLength := (List.subperm_of_subset hNodup hSub).length_le
  exact Nat.le_trans hLength (Nat.le_of_eq (List.length_map _))

/-- An expansion succeeds exactly when there is a tree of first visits, and its items are the splice of
that tree. Each file is opened at most once and none that was included before; afterwards the included
files are the old ones and the opened ones. -/
theorem expandNeeds_depthFirst (host : Host) (fs : FileSystem) (base : Option String)
    (items : List Item) (included : List String) (docs : Dict String WordDoc) :
    (∀ out, (∃ docs', (expandNeeds host fs base items included docs).result = .ok (out, docs')) ↔
      ∃ t, Fits host fs base items t ∧ FirstVisits included t.needs ∧ t.splice = out) ∧
    ∀ t, Fits host fs base items t → FirstVisits included t.needs →
      t.files.Nodup ∧ (∀ k ∈ t.files, k ∉ included) ∧
        (∀ k, k ∈ (expandNeeds host fs base items included docs).after ↔
          k ∈ included ∨ k ∈ t.files) ∧
        t.files.length ≤ fs.unread included := by
  obtain ⟨hSound, hComplete⟩ := expands host fs base items included docs
  refine ⟨fun out => ⟨?_, ?_⟩, ?_⟩
  · rintro ⟨docs', h⟩
    obtain ⟨t, hTree, hSplice, _⟩ := hSound out docs' h
    exact ⟨t, hTree.fits, hTree.first, hSplice⟩
  · rintro ⟨t, hFits, hFirst, rfl⟩
    obtain ⟨docs', h, _⟩ := hComplete t ⟨hFits, hFirst⟩
    exact ⟨docs', h⟩
  · intro t hFits hFirst
    obtain ⟨_, _, hAfter⟩ := hComplete t ⟨hFits, hFirst⟩
    obtain ⟨hNodup, hFresh⟩ := hFirst.opened_nodup
    exact ⟨hNodup, hFresh, fun k => (hAfter k).trans (hFirst.covered k),
      IsTree.files_length ⟨hFits, hFirst⟩⟩

end FactorForth.Correctness
