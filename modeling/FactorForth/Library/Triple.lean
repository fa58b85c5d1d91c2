import FactorForth.Library.Command

/-! Triples: what a command establishes, at its normal end and where it returns early. -/

namespace FactorForth.Library
variable {σ α β : Type}

/-- From `P` the command ends in `Q` or returns early in `R`; nothing is said of a fault. -/
def Triple (P : σ → Prop) (c : Cmd σ α) (Q : α → σ → Prop) (R : σ → Prop) : Prop :=
  ∀ s, P s → (∀ a t, c s (.ok a t) → Q a t) ∧ ∀ t, c s (.ret t) → R t

namespace Triple
variable {P P' : σ → Prop} {Q : α → σ → Prop} {R : σ → Prop}

theorem pure {a : α} (h : ∀ s, P s → Q a s) : Triple P (pure a : Cmd σ α) Q R := by
  intro s hs
  refine ⟨fun b t hb => ?_, fun t ht => nomatch ht⟩
  obtain ⟨rfl, rfl⟩ := Out.ok.inj hb
  exact h t hs

theorem exit (h : ∀ s, P s → R s) : Triple P (Cmd.exit : Cmd σ α) Q R := by
  intro s hs
  refine ⟨fun a t ht => (nomatch ht), fun t ht => ?_⟩
  obtain rfl := Out.ret.inj ht
  exact h t hs

theorem bind {c : Cmd σ α} {f : α → Cmd σ β} {S : β → σ → Prop} (hc : Triple P c Q R)
    (hf : ∀ a, Triple (Q a) (f a) S R) : Triple P (c >>= f) S R := by
  intro s hs
  constructor
  · intro b t h
    obtain ⟨a, u, hu, ht⟩ := Cmd.bind_ok.1 h
    exact (hf a u ((hc s hs).1 a u hu)).1 b t ht
  · intro t h
    obtain ⟨a, u, hu, ht⟩ | ht := Cmd.bind_ret.1 h
    · exact (hf a u ((hc s hs).1 a u hu)).2 t ht
    · exact (hc s hs).2 t ht

theorem ite {p : Prop} [Decidable p] {c d : Cmd σ α} (hc : Triple P c Q R) (hd : Triple P d Q R) :
    Triple P (if p then c else d) Q R := by
  split
  · exact hc
  · exact hd

theorem ofOption {f : σ → Option (α × σ)} (h : ∀ s p, P s → f s = some p → Q p.1 p.2) :
    Triple P (Cmd.ofOption f) Q R := by
  intro s hs
  refine ⟨fun a t ht => ?_, fun t ht => (Cmd.NoRet.ofOption f s t ht).elim⟩
  obtain ⟨p, hp, hOut⟩ := ht
  obtain ⟨rfl, rfl⟩ := Out.ok.inj hOut
  exact h s p hs hp

theorem ofRel {r : σ → σ → Prop} {Q : PUnit → σ → Prop} (h : ∀ s t, P s → r s t → Q ⟨⟩ t) :
    Triple P (Cmd.ofRel r) Q R := by
  intro s hs
  refine ⟨fun a t ht => ?_, fun t ht => (Cmd.NoRet.ofRel r s t ht).elim⟩
  obtain ⟨u, hu, hOut⟩ := ht
  obtain ⟨-, rfl⟩ := Out.ok.inj hOut
  exact h s t hs hu

theorem guard {p : σ → Prop} {Q : PUnit → σ → Prop} (h : ∀ s, P s → Q ⟨⟩ s) :
    Triple P (Cmd.guard p) Q R := by
  intro s hs
  refine ⟨fun a t ht => ?_, fun t ht => (Cmd.NoRet.guard p s t ht).elim⟩
  obtain ⟨-, hOut⟩ | ⟨-, hOut⟩ := ht
  · obtain ⟨-, rfl⟩ := Out.ok.inj hOut
    exact h t hs
  · cases hOut

/-- An invariant of the passes of a loop holds when the loop is over. -/
theorem loop {pass : Cmd σ Bool} (h : Triple P pass (fun _ => P) R) :
    Triple P (Cmd.loop pass) (fun _ => P) R := by
  intro s hs
  constructor
  · intro n t ht
    obtain ⟨u, hu, hLast⟩ := Cmd.loop_ok (fun v w hv hw => (h v hv).1 true w hw) ht hs
    exact (h u hu).1 false t hLast
  · rintro t ⟨k, hk⟩
    induction k generalizing s with
    | zero => exact hk.elim
    | succ k ih =>
      obtain ⟨u, -, hOut⟩ | ⟨u, hu, hRest⟩ | ⟨u, hOut, hu⟩ | ⟨hOut, -⟩ := (Cmd.next_apply _ _ _ _).1 hk
      · cases hOut
      · obtain ⟨n, v, -, hv⟩ | hv := Cmd.bind_ret.1 hRest
        · cases hv
        · exact ih u ((h s hs).1 true u hu) hv
      · obtain rfl := Out.ret.inj hOut
        exact (h s hs).2 t hu
      · cases hOut

end Triple
end FactorForth.Library
