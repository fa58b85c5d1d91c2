import Mathlib.Data.List.Basic

/-! Quoted literals: a reader with escapes and line breaks, and what it makes of an escaped text. -/

namespace FactorForth.Library

/-- How a literal is read: the quote that ends it, the letters behind a slash, and the characters that
break a line, which are read as a newline. A return with a newline behind it is one break. -/
structure Quoting (α : Type) where
  quote : α
  slash : α
  newline : α
  ret : α
  meaning : α → Option α
  isBreak : α → Bool
  slash_ne : slash ≠ quote
  ret_ne : ret ≠ newline
  ret_break : isBreak ret = true

namespace Quoting
variable {α : Type} [DecidableEq α] (q : Quoting α)

/-- The text up to the quote, and what is left behind it. -/
def read : List α → Option (List α × List α)
  | [] => none
  | c :: rest =>
    if c = q.quote then some ([], rest)
    else if c = q.slash then
      match rest with
      | [] => none
      | e :: rest => (q.meaning e).bind fun d => (read rest).map fun p => (d :: p.1, p.2)
    else if c = q.ret ∧ rest.head? = some q.newline then read rest
    else (read rest).map fun p => ((if q.isBreak c then q.newline else c) :: p.1, p.2)

/-- A character stands for itself, or is spelled behind a slash. -/
inductive Spells (c : α) : List α → Prop where
  | raw (hQuote : c ≠ q.quote) (hSlash : c ≠ q.slash) : Spells c [c]
  | named {e : α} (h : q.meaning e = some c) : Spells c [q.slash, e]

variable {q} {esc : α → List α}

theorem read_quote (rest : List α) : q.read (q.quote :: rest) = some ([], rest) := by
  rw [read.eq_def]
  exact if_pos rfl

theorem read_named {e c : α} (h : q.meaning e = some c) (rest : List α) :
    q.read (q.slash :: e :: rest) = (q.read rest).map fun p => (c :: p.1, p.2) := by
  rw [read.eq_def]
  dsimp only
  rw [if_neg q.slash_ne, if_pos rfl]
  show ((q.meaning e).bind fun d => (q.read rest).map fun p => (d :: p.1, p.2)) = _
  rw [h, Option.bind_some]

theorem read_raw {c : α} (hQuote : c ≠ q.quote) (hSlash : c ≠ q.slash) {rest : List α}
    (hPair : ¬ (c = q.ret ∧ rest.head? = some q.newline)) :
    q.read (c :: rest) =
      (q.read rest).map fun p => ((if q.isBreak c then q.newline else c) :: p.1, p.2) := by
  rw [read.eq_def]
  dsimp only
  rw [if_neg hQuote, if_neg hSlash, if_neg hPair]

theorem read_pair {rest : List α} (hQuote : q.ret ≠ q.quote) (hSlash : q.ret ≠ q.slash)
    (hPair : rest.head? = some q.newline) : q.read (q.ret :: rest) = q.read rest := by
  rw [read.eq_def]
  dsimp only
  rw [if_neg hQuote, if_neg hSlash, if_pos ⟨rfl, hPair⟩]

/-- An escaped text ends at the quote behind it, and it comes back exactly when no line break was left
as it stands. -/
theorem read_escaped (hEsc : ∀ c, q.Spells c (esc c)) (text rest : List α) :
    ∃ t, q.read (text.flatMap esc ++ q.quote :: rest) = some (t, rest) ∧ t.length ≤ text.length ∧
      (t = text ↔ ∀ c ∈ text, q.isBreak c = true → esc c = [c] → c = q.newline) := by
  induction text with
  | nil =>
    refine ⟨[], ?_, Nat.le_refl 0, iff_of_true rfl (by simp)⟩
    rw [List.flatMap_nil, List.nil_append, read_quote]
  | cons c text ih =>
    obtain ⟨t, hRead, hLength, hSame⟩ := ih
    rw [List.flatMap_cons, List.append_assoc, List.forall_mem_cons, ← hSame]
    generalize hc : esc c = cs
    have hSpells : q.Spells c cs := hc ▸ hEsc c
    cases hSpells with
    | @named e h =>
      refine ⟨c :: t, ?_, Nat.succ_le_succ hLength, ?_⟩
      · show q.read (q.slash :: e :: (text.flatMap esc ++ q.quote :: rest)) = _
        rw [read_named h, hRead]
        rfl
      · have hLong : [q.slash, e] ≠ [c] := by simp
        rw [List.cons_inj_right]
        exact ⟨fun h => ⟨fun _ hRaw => absurd hRaw hLong, h⟩, And.right⟩
    | raw hQuote hSlash =>
      by_cases hPair : c = q.ret ∧ (text.flatMap esc ++ q.quote :: rest).head? = some q.newline
      · obtain ⟨rfl, hPair⟩ := hPair
        refine ⟨t, ?_, Nat.le_succ_of_le hLength, iff_of_false ?_ ?_⟩
        · show q.read (q.ret :: (text.flatMap esc ++ q.quote :: rest)) = _
          rw [read_pair hQuote hSlash hPair, hRead]
        · rintro rfl
          exact absurd hLength (by simp)
        · rintro ⟨h, _⟩
          exact q.ret_ne (h q.ret_break rfl)
      · refine ⟨(if q.isBreak c then q.newline else c) :: t, ?_, Nat.succ_le_succ hLength, ?_⟩
        · show q.read (c :: (text.flatMap esc ++ q.quote :: rest)) = _
          rw [read_raw hQuote hSlash hPair, hRead]
          rfl
        · rw [List.cons.injEq]
          refine and_congr_left fun _ => ?_
          split
          · rename_i hBreak
            exact ⟨fun h _ _ => h.symm, fun h => (h hBreak rfl).symm⟩
          · rename_i hBreak
            exact iff_of_true rfl fun h => absurd h hBreak

end Quoting
end FactorForth.Library
