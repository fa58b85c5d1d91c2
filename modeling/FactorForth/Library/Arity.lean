import FactorForth.Library.Command

/-! Net stack effects of commands. The state shows a stack through `stk`; a command of arity
`i → o` replaces the top `i` items by `o` items and leaves everything beneath them in place. -/

namespace FactorForth.Library
variable {σ α β V : Type} {stk : σ → List V} {i m o k : Nat}

def Arity (stk : σ → List V) (i o : Nat) (c : Cmd σ α) : Prop :=
  ∀ s a t top rest, c s (.ok a t) → stk s = top ++ rest → top.length = i →
    ∃ top', stk t = top' ++ rest ∧ top'.length = o

namespace Arity

theorem frame {c : Cmd σ α} (h : Arity stk i o c) (k : Nat) : Arity stk (i + k) (o + k) c := by
  intro s a t top rest hc hs hlen
  have htop : top = top.take i ++ top.drop i := (List.take_append_drop i top).symm
  obtain ⟨top', ht, hlen'⟩ := h s a t (top.take i) (top.drop i ++ rest) hc
    (by rw [hs, ← List.append_assoc, ← htop]) (by rw [List.length_take]; omega)
  refine ⟨top' ++ top.drop i, by rw [ht, List.append_assoc], ?_⟩
  rw [List.length_append, List.length_drop, hlen']
  omega

theorem pure (a : α) : Arity stk k k (pure a : Cmd σ α) := by
  intro s b t top rest hc hs hlen
  cases hc
  exact ⟨top, hs, hlen⟩

theorem guard (p : σ → Prop) : Arity stk k k (Cmd.guard p) := by
  intro s b t top rest hc hs hlen
  rcases hc with ⟨-, h⟩ | ⟨-, h⟩
  · cases h
    exact ⟨top, hs, hlen⟩
  · cases h

theorem bind {x : Cmd σ α} {f : α → Cmd σ β} (hx : Arity stk i m x)
    (hf : ∀ a, Arity stk m o (f a)) : Arity stk i o (x >>= f) := by
  intro s b t top rest hc hs hlen
  obtain ⟨a, u, ha, hb⟩ := Cmd.bind_ok.1 hc
  obtain ⟨mid, hu, hmid⟩ := hx s a u top rest ha hs hlen
  exact hf a u b t mid rest hb hu hmid

theorem ite {p : Prop} [Decidable p] {x y : Cmd σ α} (hx : Arity stk i o x)
    (hy : Arity stk i o y) : Arity stk i o (if p then x else y) := by
  split
  · exact hx
  · exact hy

theorem loop {pass : Cmd σ Bool} (h : Arity stk k k pass) : Arity stk k k (Cmd.loop pass) := by
  intro s n t top rest hc hs hlen
  obtain ⟨u, ⟨mid, hu, hmid⟩, ht⟩ := Cmd.loop_ok
    (p := fun s => ∃ top, stk s = top ++ rest ∧ top.length = k)
    (fun s t ⟨top, hs, hlen⟩ hp => h s true t top rest hp hs hlen) hc ⟨top, hs, hlen⟩
  exact h u false t mid rest ht hu hmid

/-- A loop held to one pass has the arity of the pass, whatever its surplus. -/
theorem loop_once {pass : Cmd σ Bool} {p : Nat → Prop} (h : Arity stk i o pass)
    (hp : ∀ n, p n → n = 1) :
    Arity stk i o (Cmd.loop pass >>= fun n => Cmd.guard fun _ => p n) := by
  intro s a t top rest hc hs hlen
  obtain ⟨n, u, hn, hg⟩ := Cmd.bind_ok.1 hc
  rcases hg with ⟨hpn, ht⟩ | ⟨-, ht⟩
  · cases ht
    obtain rfl := hp n hpn
    exact h s false t top rest (Cmd.loop_one hn) hs hlen
  · cases ht

end Arity
end FactorForth.Library
