import Mathlib.Data.List.Basic

/-! Finite maps as association lists. Inserting a key drops its older entry, so a map has one entry
for a key, as a hash map does. -/

namespace FactorForth.Library
variable {κ α : Type} [DecidableEq κ]

abbrev Dict (κ α : Type) : Type := List (κ × α)

namespace Dict

def erase (d : Dict κ α) (k : κ) : Dict κ α := d.filter fun p => p.1 != k

def insert (d : Dict κ α) (k : κ) (v : α) : Dict κ α := (k, v) :: erase d k

def contains (d : Dict κ α) (k : κ) : Bool := (d.lookup k).isSome

/-- The entries of `e` inserted into `d`. -/
def merge (d e : Dict κ α) : Dict κ α := e.foldr (fun p d => insert d p.1 p.2) d

/-- Insert a key that is not there yet. -/
def orInsert (d : Dict κ α) (k : κ) (v : α) : Dict κ α := if contains d k then d else insert d k v

theorem lookup_cons (d : Dict κ α) (j k : κ) (v : α) :
    List.lookup k ((j, v) :: d) = if j = k then some v else d.lookup k := by
  by_cases h : j = k
  · subst h
    simp only [List.lookup_cons, BEq.rfl, if_true]
  · have hb : (k == j) = false := by simpa only [beq_eq_false_iff_ne, ne_eq] using Ne.symm h
    simp only [List.lookup_cons, hb, if_neg h]

theorem lookup_erase_ne (d : Dict κ α) {j k : κ} (h : j ≠ k) :
    List.lookup k (erase d j) = d.lookup k := by
  induction d with
  | nil => rfl
  | cons p d ih =>
    obtain ⟨i, v⟩ := p
    rw [lookup_cons]
    by_cases hi : i = j
    · subst hi
      have hp : erase ((i, v) :: d) i = erase d i := by simp [erase]
      rw [hp, ih, if_neg h]
    · have hp : erase ((i, v) :: d) j = (i, v) :: erase d j := by simp [erase, hi]
      rw [hp, lookup_cons, ih]

@[simp] theorem lookup_insert_self (d : Dict κ α) (k : κ) (v : α) :
    (insert d k v).lookup k = some v := by
  rw [insert, lookup_cons, if_pos rfl]

theorem lookup_insert_ne (d : Dict κ α) {j k : κ} (v : α) (h : j ≠ k) :
    (insert d j v).lookup k = d.lookup k := by
  rw [insert, lookup_cons, if_neg h, lookup_erase_ne d h]

@[simp] theorem lookup_erase_self (d : Dict κ α) (k : κ) : (erase d k).lookup k = none := by
  rw [List.lookup_eq_none_iff]
  intro p hp
  have hNe := (List.mem_filter.mp hp).2
  rw [bne_iff_ne] at hNe
  exact bne_iff_ne.mpr (Ne.symm hNe)

theorem lookup_erase (d : Dict κ α) (j k : κ) :
    (erase d j).lookup k = if j = k then none else d.lookup k := by
  split
  · next h => rw [h, lookup_erase_self]
  · next h => exact lookup_erase_ne d h

theorem lookup_insert (d : Dict κ α) (j k : κ) (v : α) :
    (insert d j v).lookup k = if j = k then some v else d.lookup k := by
  split
  · next h => rw [h, lookup_insert_self]
  · next h => exact lookup_insert_ne d v h

theorem mem_of_lookup {d : Dict κ α} {k : κ} {v : α} (h : d.lookup k = some v) : (k, v) ∈ d := by
  induction d with
  | nil => cases h
  | cons p d ih =>
    obtain ⟨j, w⟩ := p
    rw [lookup_cons] at h
    split at h
    · next hj =>
      cases h
      rw [hj]
      exact List.mem_cons_self
    · exact List.mem_cons_of_mem _ (ih h)

theorem of_lookup_erase {d : Dict κ α} {j k : κ} {v : α} (h : (erase d j).lookup k = some v) :
    j ≠ k ∧ d.lookup k = some v := by
  have hNe : j ≠ k := by
    rintro rfl
    have hIn := (List.mem_filter.mp (mem_of_lookup h)).2
    simp at hIn
  refine ⟨hNe, ?_⟩
  rwa [← lookup_erase_ne d hNe]

theorem mem_insert {d : Dict κ α} {k : κ} {v : α} {p : κ × α} (h : p ∈ insert d k v) :
    p = (k, v) ∨ p ∈ d :=
  (List.mem_cons.mp h).imp_right fun hOld => (List.mem_filter.mp hOld).1

theorem mem_foldl_insert {d : Dict κ α} {ps : List (κ × α)} {p : κ × α}
    (h : p ∈ ps.foldl (fun d q => insert d q.1 q.2) d) : p ∈ d ∨ p ∈ ps := by
  induction ps generalizing d with
  | nil => exact .inl h
  | cons q ps ih =>
    rcases ih h with hHere | hLater
    · rcases mem_insert hHere with rfl | hOld
      · exact .inr List.mem_cons_self
      · exact .inl hOld
    · exact .inr (List.mem_cons_of_mem _ hLater)

theorem lookup_merge (d e : Dict κ α) (k : κ) :
    (merge d e).lookup k = (e.lookup k).or (d.lookup k) := by
  induction e with
  | nil => rfl
  | cons p e ih =>
    obtain ⟨j, v⟩ := p
    change (insert (merge d e) j v).lookup k = _
    rw [lookup_insert, lookup_cons, ih]
    split
    · rfl
    · rfl

theorem contains_iff {d : Dict κ α} {k : κ} : contains d k = true ↔ ∃ v, d.lookup k = some v := by
  rw [contains, Option.isSome_iff_exists]

theorem contains_merge (d e : Dict κ α) (k : κ) :
    contains (merge d e) k = (contains e k || contains d k) := by
  rw [contains, lookup_merge, Option.isSome_or, contains, contains]

theorem contains_insert (d : Dict κ α) (j k : κ) (v : α) :
    contains (insert d j v) k = (decide (j = k) || contains d k) := by
  rw [contains, lookup_insert, contains]
  by_cases h : j = k <;> simp [h]

/-- What an input writes: the keys it names get a value, and no other entry changes. -/
def Writes {ι : Type} (write : Dict κ α → ι → Dict κ α) (keys : ι → List κ) : Prop :=
  ∀ d i k, (k ∈ keys i → contains (write d i) k = true) ∧
    (k ∉ keys i → (write d i).lookup k = d.lookup k)

theorem Writes.foldl {ι : Type} {write : Dict κ α → ι → Dict κ α} {keys : ι → List κ}
    (h : Writes write keys) (d : Dict κ α) (is : List ι) (k : κ) :
    (k ∈ is.flatMap keys → contains (is.foldl write d) k = true) ∧
      (k ∉ is.flatMap keys → (is.foldl write d).lookup k = d.lookup k) := by
  induction is generalizing d with
  | nil => exact ⟨by simp, fun _ => rfl⟩
  | cons i is ih =>
    obtain ⟨hIn, hOut⟩ := ih (write d i)
    obtain ⟨hSets, hFrame⟩ := h d i k
    rw [List.flatMap_cons, List.mem_append, List.foldl_cons]
    constructor
    · intro hk
      by_cases hTail : k ∈ is.flatMap keys
      · exact hIn hTail
      · have hHead := hSets (hk.resolve_right hTail)
        rwa [contains, hOut hTail]
    · intro hk
      rw [not_or] at hk
      rw [hOut hk.2, hFrame hk.1]

theorem writes_insert : Writes (fun (d : Dict κ α) (p : κ × α) => insert d p.1 p.2)
    fun p => [p.1] := by
  intro d p k
  rw [List.mem_singleton]
  constructor
  · intro hk
    rw [contains, hk, lookup_insert_self]
    rfl
  · intro hk
    exact lookup_insert_ne d p.2 (Ne.symm hk)

theorem writes_orInsert : Writes (fun (d : Dict κ α) (p : κ × α) => orInsert d p.1 p.2)
    fun p => [p.1] := by
  intro d p k
  show (k ∈ [p.1] → contains (orInsert d p.1 p.2) k = true) ∧
    (k ∉ [p.1] → (orInsert d p.1 p.2).lookup k = d.lookup k)
  unfold orInsert
  split
  · next hHas => exact ⟨fun hk => List.mem_singleton.mp hk ▸ hHas, fun _ => rfl⟩
  · exact writes_insert d p k

/-- An input that may write nothing. -/
theorem Writes.option {ι : Type} {f : ι → Option (κ × α)} :
    Writes (fun d i => (f i).elim d fun p => insert d p.1 p.2)
      fun i => ((f i).map Prod.fst).toList := by
  intro d i k
  show (k ∈ ((f i).map Prod.fst).toList →
      contains ((f i).elim d fun p => insert d p.1 p.2) k = true) ∧
    (k ∉ ((f i).map Prod.fst).toList →
      ((f i).elim d fun p => insert d p.1 p.2).lookup k = d.lookup k)
  cases f i with
  | none => exact ⟨by simp, fun _ => rfl⟩
  | some p => exact writes_insert d p k

theorem mem_keys {d : Dict κ α} {k : κ} : k ∈ d.map Prod.fst ↔ contains d k = true := by
  rw [contains_iff, List.mem_map]
  constructor
  · rintro ⟨⟨j, v⟩, hp, rfl⟩
    cases hLookup : d.lookup j with
    | some w => exact ⟨w, rfl⟩
    | none =>
      have hNe := (List.lookup_eq_none_iff.mp hLookup) (j, v) hp
      simp at hNe
  · rintro ⟨v, hv⟩
    exact ⟨(k, v), mem_of_lookup hv, rfl⟩

theorem contains_erase (d : Dict κ α) (j k : κ) :
    contains (erase d j) k = (!decide (j = k) && contains d k) := by
  rw [contains, lookup_erase, contains]
  by_cases h : j = k <;> simp [h]

theorem contains_map {β : Type} (f : κ → α → β) (d : Dict κ α) (k : κ) :
    contains (d.map fun p => (p.1, f p.1 p.2)) k = contains d k := by
  induction d with
  | nil => rfl
  | cons p d ih =>
    obtain ⟨j, v⟩ := p
    rw [List.map_cons, contains, contains, lookup_cons, lookup_cons]
    split
    · rfl
    · exact ih

/-- No key has two entries. -/
def Distinct (d : Dict κ α) : Prop := (d.map Prod.fst).Nodup

theorem Distinct.lookup_of_mem {d : Dict κ α} (h : Distinct d) {k : κ} {v : α} (hp : (k, v) ∈ d) :
    d.lookup k = some v := by
  induction d with
  | nil => cases hp
  | cons p d ih =>
    obtain ⟨j, w⟩ := p
    obtain ⟨hNew, hRest⟩ := List.nodup_cons.mp h
    rw [lookup_cons]
    rcases List.mem_cons.mp hp with hHead | hTail
    · cases hHead
      exact if_pos rfl
    · have hNe : j ≠ k := by
        rintro rfl
        exact hNew (List.mem_map.mpr ⟨(j, v), hTail, rfl⟩)
      rw [if_neg hNe]
      exact ih hRest hTail

theorem Distinct.erase {d : Dict κ α} (h : Distinct d) (k : κ) : Distinct (Dict.erase d k) := by
  have hSub : (Dict.erase d k).Sublist d := List.filter_sublist
  exact List.Nodup.sublist (hSub.map Prod.fst) h

theorem Distinct.insert {d : Dict κ α} (h : Distinct d) (k : κ) (v : α) :
    Distinct (Dict.insert d k v) := by
  refine List.nodup_cons.mpr ⟨?_, h.erase k⟩
  intro hMem
  obtain ⟨p, hp, hKey⟩ := List.mem_map.mp hMem
  have hNe : p.1 ≠ k := by simpa using (List.mem_filter.mp hp).2
  exact hNe hKey

theorem Distinct.merge {d : Dict κ α} (h : Distinct d) (e : Dict κ α) : Distinct (Dict.merge d e) := by
  induction e with
  | nil => exact h
  | cons p e ih => exact ih.insert p.1 p.2

/-- An entry inserted where it already is moves to the front. -/
theorem insert_front {front back : Dict κ α} {k : κ} {v : α}
    (h : Distinct (front ++ (k, v) :: back)) :
    Dict.insert (front ++ (k, v) :: back) k v = (k, v) :: (front ++ back) := by
  have hOther : ∀ p ∈ front ++ back, p.1 ≠ k := by
    intro p hp hKey
    have hPerm : (front ++ (k, v) :: back).Perm ((k, v) :: (front ++ back)) := List.perm_middle
    have hNodup := ((hPerm.map Prod.fst).nodup_iff).mp h
    exact (List.nodup_cons.mp hNodup).1 (List.mem_map.mpr ⟨p, hp, hKey⟩)
  have hKeep : (front ++ back).filter (fun p => p.1 != k) = front ++ back :=
    List.filter_eq_self.mpr fun p hp => by simpa using hOther p hp
  rw [Dict.insert, erase, List.filter_append, List.filter_cons_of_neg (by simp),
    ← List.filter_append, hKeep]

theorem merge_suffix (back front : Dict κ α) (h : Distinct (front ++ back)) :
    Dict.merge (front ++ back) back = back ++ front := by
  induction back generalizing front with
  | nil => exact List.append_nil front
  | cons p back ih =>
    have hShift : front ++ p :: back = (front ++ [p]) ++ back := List.append_cons front p back
    have hRest := ih (front ++ [p]) (hShift ▸ h)
    rw [← hShift] at hRest
    have hDistinct : Distinct ((back ++ front) ++ (p.1, p.2) :: []) := by
      have hMerged : Distinct (Dict.merge (front ++ p :: back) back) := h.merge back
      rw [hRest, ← List.append_assoc] at hMerged
      exact hMerged
    show Dict.insert (Dict.merge (front ++ p :: back) back) p.1 p.2 = _
    rw [hRest, ← List.append_assoc, insert_front hDistinct, List.append_nil]
    rfl

/-- A map with distinct keys, merged into itself, is itself. -/
theorem merge_self {d : Dict κ α} (h : Distinct d) : Dict.merge d d = d := by
  have hSuffix := merge_suffix d [] h
  rw [List.nil_append, List.append_nil] at hSuffix
  exact hSuffix

end Dict
end FactorForth.Library
