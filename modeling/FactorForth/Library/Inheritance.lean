import FactorForth.Library.Dict
import Mathlib.Data.List.Infix

/-! Classes with one parent at most. The slots of a class are those of its parent and then its own, so
a class that is declared again changes the classes below it; a table that is flattened while the
declarations come does not follow them. -/

namespace FactorForth.Library
variable {κ σ : Type} [DecidableEq κ]

structure Node (κ σ : Type) where
  parent : Option κ
  own : List σ
deriving DecidableEq

abbrev Nodes (κ σ : Type) : Type := Dict κ (Node κ σ)

namespace Nodes

/-- The slots of a class by its chain of parents. -/
inductive Effective (T : Nodes κ σ) : κ → List σ → Prop where
  | root {k : κ} {own : List σ} (h : T.lookup k = some ⟨none, own⟩) : Effective T k own
  | child {k p : κ} {own slots : List σ} (h : T.lookup k = some ⟨some p, own⟩)
      (hParent : Effective T p slots) : Effective T k (slots ++ own)

/-- The second class is the first one or stands below it. -/
inductive Descends (T : Nodes κ σ) (k : κ) : κ → Prop where
  | self : Descends T k k
  | step {d p : κ} {own : List σ} (h : T.lookup d = some ⟨some p, own⟩) (hParent : Descends T k p) :
      Descends T k d

variable {T : Nodes κ σ} {k d : κ} {n : Node κ σ} {slots slots' : List σ}

theorem Effective.unique (h : Effective T k slots) (h' : Effective T k slots') : slots = slots' := by
  induction h generalizing slots' with
  | root hNode =>
    cases h' with
    | root hNode' =>
      rw [hNode] at hNode'
      cases hNode'
      rfl
    | child hNode' _ =>
      rw [hNode] at hNode'
      cases hNode'
  | child hNode _ ih =>
    cases h' with
    | root hNode' =>
      rw [hNode] at hNode'
      cases hNode'
    | child hNode' hParent' =>
      rw [hNode] at hNode'
      cases hNode'
      rw [ih hParent']

/-- A class below another begins with its slots. -/
theorem Descends.slots_prefix (h : Descends T k d) (hk : Effective T k slots) (hd : Effective T d slots') :
    slots <+: slots' := by
  induction h generalizing slots' with
  | self =>
    rw [hk.unique hd]
  | step hNode _ ih =>
    cases hd with
    | root hNode' =>
      rw [hNode] at hNode'
      cases hNode'
    | child hNode' hParent =>
      rw [hNode] at hNode'
      cases hNode'
      exact (ih hParent).trans (List.prefix_append _ _)

/-- The chain of a class that does not pass through `k` stays when `k` is declared. -/
theorem Effective.of_erase (n : Node κ σ) (h : Effective (Dict.erase T k) d slots) :
    Effective (Dict.insert T k n) d slots := by
  have hKept : ∀ {j : κ} {node : Node κ σ}, (Dict.erase T k).lookup j = some node →
      (Dict.insert T k n).lookup j = some node := by
    intro j node hNode
    obtain ⟨hNe, hOld⟩ := Dict.of_lookup_erase hNode
    rwa [Dict.lookup_insert_ne _ _ hNe]
  induction h with
  | root hNode => exact .root (hKept hNode)
  | child hNode _ ih => exact .child (hKept hNode) ih

theorem Effective.erase_le (h : Effective (Dict.erase T k) d slots) : Effective T d slots := by
  induction h with
  | root hNode => exact .root (Dict.of_lookup_erase hNode).2
  | child hNode _ ih => exact .child (Dict.of_lookup_erase hNode).2 ih

/-- What is asked of a declaration: the parent is a class whose chain does not come back to it. -/
def Accepts (T : Nodes κ σ) (k : κ) (n : Node κ σ) : Prop :=
  ∀ p, n.parent = some p → ∃ slots, Effective (Dict.erase T k) p slots

/-- A class that others extend keeps its slots when it is declared again. -/
def Steady (T : Nodes κ σ) (k : κ) (n : Node κ σ) : Prop :=
  ∀ d own slots, T.lookup d = some ⟨some k, own⟩ → Effective T k slots →
    Effective (Dict.insert T k n) k slots

theorem Effective.declare (h : Effective T d slots) (hSteady : Steady T k n) (hNe : d ≠ k) :
    Effective (Dict.insert T k n) d slots := by
  induction h with
  | root hNode =>
    refine .root ?_
    rwa [Dict.lookup_insert_ne _ _ hNe.symm]
  | @child d p own slots hNode hParent ih =>
    refine .child ((Dict.lookup_insert_ne _ _ hNe.symm).trans hNode) ?_
    by_cases hp : p = k
    · subst hp
      exact hSteady d own slots hNode hParent
    · exact ih hp

/-! A table that is flattened as the declarations come, under names of its own. -/

section Flat
variable {ι : Type} [DecidableEq ι] (g : ι → κ)

def flatten (F : Dict ι (List σ)) (k : ι) (parent : Option ι) (own : List σ) : Dict ι (List σ) :=
  Dict.insert F k ((parent.elim [] fun p => (F.lookup p).getD []) ++ own)

/-- The flattened slots of each class are those of its chain. -/
def Flat (F : Dict ι (List σ)) (T : Nodes κ σ) : Prop :=
  ∀ k slots, F.lookup k = some slots → Effective T (g k) slots

/-- A declaration after which the flattened table still agrees with the chains. -/
structure Follows (F : Dict ι (List σ)) (T : Nodes κ σ) (k : ι) (parent : Option ι) (own : List σ) :
    Prop where
  declared : ∀ p, parent = some p → Dict.contains F p = true
  accepts : Accepts T (g k) ⟨parent.map g, own⟩
  steady : Steady T (g k) ⟨parent.map g, own⟩
  apart : ∀ j, Dict.contains F j = true → g j = g k → j = k

variable {g}

theorem Flat.declare {F : Dict ι (List σ)} {k : ι} {parent : Option ι} {own : List σ}
    (h : Flat g F T) (hFollows : Follows g F T k parent own) :
    Flat g (flatten F k parent own) (Dict.insert T (g k) ⟨parent.map g, own⟩) := by
  intro j slots hj
  unfold flatten at hj
  rw [Dict.lookup_insert] at hj
  split at hj
  · rename_i hSame
    subst hSame
    obtain rfl := Option.some.inj hj
    cases parent with
    | none => exact .root (Dict.lookup_insert_self _ _ _)
    | some p =>
      obtain ⟨flat, hFlat⟩ := Dict.contains_iff.mp (hFollows.declared p rfl)
      obtain ⟨chain, hChain⟩ := hFollows.accepts (g p) rfl
      have hEq : flat = chain := (h p flat hFlat).unique hChain.erase_le
      refine .child (Dict.lookup_insert_self _ _ _) ?_
      rw [Option.elim_some, hFlat, Option.getD_some, hEq]
      exact hChain.of_erase _
  · rename_i hOther
    refine (h j slots hj).declare hFollows.steady fun hg => hOther ?_
    exact (hFollows.apart j (Dict.contains_iff.mpr ⟨slots, hj⟩) hg).symm

end Flat

end Nodes

end FactorForth.Library
