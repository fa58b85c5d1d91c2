import FactorForth.Correctness.LexText
import FactorForth.Library.BytePos
import FactorForth.Library.Outcome
import Mathlib.Data.List.Induction
import Mathlib.Logic.Relation

/-! Token spans. The byte offset is moved by every reader, line and column by all of them but the one
that takes a LET block. -/

namespace FactorForth.Correctness
open FactorForth.Library FactorForth.Compiler FactorForth.Compiler.Lex

/-! Places by counting. -/

def lineOf (front : List Char) : Nat := front.count '\n' + 1

/-- Columns count bytes. -/
def colOf (front : List Char) : Nat := byteLen (front.reverse.takeWhile (· != '\n')) + 1

/-- Line and column of a byte offset. -/
def placeAt (text : List Char) (offset : Nat) : Option (Nat × Nat) :=
  (splitAtByte text offset).map fun p => (lineOf p.1, colOf p.1)

def ExactPos (text : List Char) (p : Pos) : Prop := placeAt text p.byteOffset = some (p.line, p.col)

instance (text : List Char) (p : Pos) : Decidable (ExactPos text p) := inferInstanceAs (Decidable (_ = _))

theorem advance_start (front : List Char) :
    advance Pos.start front = ⟨lineOf front, colOf front, byteLen front⟩ := by
  induction front using List.reverseRecOn with
  | nil => rfl
  | append_singleton front c ih =>
    rw [advance_append, ih]
    show step _ c = _
    unfold step lineOf colOf
    rw [List.count_append, List.reverse_append, byteLen_append]
    by_cases hc : c = '\n'
    · subst hc
      rfl
    · have hOther : (c != '\n') = true := by simpa using hc
      have hCount : [c].count '\n' = 0 := List.count_eq_zero.mpr (by simpa using Ne.symm hc)
      rw [if_neg hc, hCount]
      simp only [List.reverse_singleton, List.singleton_append, List.takeWhile_cons, hOther, if_true,
        byteLen_cons, byteLen_nil, Pos.mk.injEq, Nat.add_zero, true_and, and_true]
      omega

/-- A position is exact where it is the one that a walk from the start has. -/
theorem exactPos_iff {front back : List Char} {p : Pos} (h : p.byteOffset = byteLen front) :
    ExactPos (front ++ back) p ↔ p = advance Pos.start front := by
  obtain ⟨line, col, offset⟩ := p
  obtain rfl : offset = byteLen front := h
  unfold ExactPos placeAt
  rw [splitAtByte_append, advance_start]
  simp only [Option.map_some, Option.some.injEq, Prod.mk.injEq, Pos.mk.injEq, and_true]
  exact and_congr eq_comm eq_comm

theorem advance_line (p : Pos) (cs : List Char) : (advance p cs).line = p.line + cs.count '\n' := by
  induction cs generalizing p with
  | nil => rfl
  | cons c cs ih =>
    rw [advance_cons, ih, step]
    split
    · rename_i hc
      rw [hc, List.count_cons_self]
      dsimp only
      omega
    · rename_i hc
      rw [List.count_cons_of_ne hc]

theorem advance_offset (p : Pos) (cs : List Char) :
    (advance p cs).byteOffset = p.byteOffset + byteLen cs := by
  induction cs generalizing p with
  | nil => rfl
  | cons c cs ih =>
    rw [advance_cons, ih, byteLen_cons, step]
    split
    · rename_i hc
      have hSize : c.utf8Size = 1 := by
        rw [hc]
        rfl
      dsimp only
      omega
    · dsimp only
      omega

theorem advance_col (p : Pos) {cs : List Char} (h : '\n' ∉ cs) :
    (advance p cs).col = p.col + byteLen cs := by
  induction cs generalizing p with
  | nil => rfl
  | cons c cs ih =>
    have hc : c ≠ '\n' := fun hc => h (hc ▸ List.mem_cons_self)
    rw [advance_cons, ih _ (fun hIn => h (List.mem_cons_of_mem _ hIn)), byteLen_cons, step, if_neg hc]
    dsimp only
    omega

/-- Line and column do not both stay over a text that is not empty. -/
theorem advance_moves (p : Pos) {cs : List Char} (h : cs ≠ []) :
    (advance p cs).line ≠ p.line ∨ (advance p cs).col ≠ p.col := by
  by_cases hLine : '\n' ∈ cs
  · have hCount := List.count_pos_iff.mpr hLine
    rw [advance_line]
    exact .inl (by omega)
  · have hLen : byteLen cs ≠ 0 := fun hZero => h (byteLen_eq_zero.mp hZero)
    rw [advance_col p hLine]
    exact .inr (by omega)

/-! The readers. -/

/-- The cursor is where a walk over the front of the text leads. -/
def Walked (cs : List Char) (p : Pos) (cur : Cursor) : Prop :=
  ∃ own, cs = own ++ cur.rest ∧ cur.pos = advance p own

theorem Walked.refl (cs : List Char) (p : Pos) : Walked cs p ⟨cs, p⟩ := ⟨[], rfl, rfl⟩

theorem Walked.cons {c : Char} {cs : List Char} {p : Pos} {cur : Cursor} (h : Walked cs (step p c) cur) :
    Walked (c :: cs) p cur := by
  obtain ⟨own, rfl, hPos⟩ := h
  exact ⟨c :: own, rfl, hPos⟩

theorem Walked.trans {cs : List Char} {p : Pos} {mid cur : Cursor} (h : Walked cs p mid)
    (h' : Walked mid.rest mid.pos cur) : Walked cs p cur := by
  obtain ⟨own, rfl, hPos⟩ := h
  obtain ⟨more, hMore, hPos'⟩ := h'
  refine ⟨own ++ more, ?_, ?_⟩
  · rw [hMore, List.append_assoc]
  · rw [hPos', hPos, advance_append]

theorem skipWs_walked (cs : List Char) (p : Pos) :
    ∃ gap, Blank gap ∧ cs = gap ++ (skipWs cs p).rest ∧ (skipWs cs p).pos = advance p gap := by
  induction cs generalizing p with
  | nil => exact ⟨[], List.forall_mem_nil _, rfl, rfl⟩
  | cons c cs ih =>
    rw [skipWs]
    split
    · rename_i hc
      obtain ⟨gap, hGap, hText, hPos⟩ := ih (step p c)
      exact ⟨c :: gap, List.forall_mem_cons.mpr ⟨hc, hGap⟩, congrArg (c :: ·) hText, hPos⟩
    · exact ⟨[], List.forall_mem_nil _, rfl, rfl⟩

theorem readUntil_taken (stop : Char → Bool) (cs : List Char) (p : Pos) :
    (readUntil stop cs p).1 = cs.takeWhile (!stop ·) ∧
      cs = (readUntil stop cs p).1 ++ (readUntil stop cs p).2.rest ∧
      (readUntil stop cs p).2.pos = advance p (readUntil stop cs p).1 := by
  induction cs generalizing p with
  | nil => exact ⟨rfl, rfl, rfl⟩
  | cons c cs ih =>
    rw [readUntil, List.takeWhile_cons]
    cases hc : stop c with
    | true => exact ⟨rfl, rfl, rfl⟩
    | false =>
      obtain ⟨hTaken, hText, hPos⟩ := ih (step p c)
      exact ⟨congrArg (c :: ·) hTaken, congrArg (c :: ·) hText, hPos⟩

theorem readUntil_walked (stop : Char → Bool) (cs : List Char) (p : Pos) :
    Walked cs p (readUntil stop cs p).2 := ⟨_, (readUntil_taken stop cs p).2⟩

theorem skipSeparator_walked (cs : List Char) (p : Pos) : Walked cs p (skipSeparator cs p) := by
  cases cs with
  | nil => exact .refl _ _
  | cons c cs =>
    rw [skipSeparator]
    split
    · exact .cons (.refl _ _)
    · exact .refl _ _

theorem readToEol_walked (cs : List Char) (p : Pos) : Walked cs p (readToEol cs p).2 := by
  have hRead := readUntil_walked (· == '\n') cs p
  simp only [readToEol]
  split
  · rename_i c rest hRest
    apply hRead.trans
    rw [hRest]
    exact .cons (.refl _ _)
  · exact hRead

theorem readParenComment_walked {cs : List Char} {p start : Pos} {r : String × Cursor}
    (h : readParenComment cs p start = .ok r) : Walked cs p r.2 := by
  have hRead := readUntil_walked (· == ')') cs p
  simp only [readParenComment] at h
  split at h
  · cases h
  · rename_i c rest hRest
    obtain rfl := Except.ok.inj h
    apply hRead.trans
    rw [hRest]
    exact .cons (.refl _ _)

theorem readQuotedString_walked {kind : StringKind} {cs : List Char} {p start : Pos}
    {r : String × Cursor} (h : readQuotedString kind cs p start = .ok r) : Walked cs p r.2 := by
  have hRead := readUntil_walked (· == '"') cs p
  simp only [readQuotedString] at h
  split at h
  · cases h
  · rename_i c rest hRest
    obtain rfl := Except.ok.inj h
    apply hRead.trans
    rw [hRest]
    exact .cons (.refl _ _)

theorem charLiteral_walked {cs : List Char} {p : Pos} {v : Nat} {raw : String} {cur : Cursor}
    (h : charLiteral cs p = some (v, raw, cur)) : Walked cs p cur := by
  unfold charLiteral at h
  split at h
  · split at h
    · cases h
      exact .cons (.cons (.cons (.cons (.refl _ _))))
    · cases h
  · split at h
    · cases h
      exact .cons (.cons (.cons (.refl _ _)))
    · cases h
  · cases h

/-- A token stands between the place where it is read and the cursor behind it. -/
def Spanned (p : Pos) (t : Token) (cur : Cursor) : Prop := t.span = ⟨p, cur.pos⟩

theorem stringToken_walked {kind : StringKind} {cs : List Char} {p start : Pos} {t : Token}
    {cur : Cursor} (h : stringToken kind cs p start = .ok (some (t, cur))) :
    Walked cs p cur ∧ Spanned start t cur := by
  simp only [stringToken] at h
  cases hr : readQuotedString kind (skipSeparator cs p).rest (skipSeparator cs p).pos start with
  | error e => simp [hr, Except.map] at h
  | ok r =>
    rw [hr] at h
    obtain ⟨rfl, rfl⟩ := Prod.mk.inj (Option.some.inj (Except.ok.inj h))
    exact ⟨(skipSeparator_walked cs p).trans (readQuotedString_walked hr), rfl⟩

theorem findLetEnd_blank {cs : List Char} {r : List Char × List Char}
    (h : findLetEnd .blank cs = some r) : r.1 ≠ [] := by
  cases cs with
  | nil => cases h
  | cons c cs =>
    simp only [findLetEnd] at h
    split_ifs at h <;>
      obtain ⟨q, -, rfl⟩ := Option.map_eq_some_iff.mp h <;> exact List.cons_ne_nil _ _

/-- The text goes on with the word LET. -/
def StartsLet (cs : List Char) : Prop := lower (String.ofList (cs.takeWhile (!isBlank ·))) = "let"

instance (cs : List Char) : Decidable (StartsLet cs) := inferInstanceAs (Decidable (_ = _))

/-! One token. -/

theorem startsLet_head {c : Char} {cs : List Char} (h : StartsLet (c :: cs)) :
    c.toLower = 'l' := by
  unfold StartsLet at h
  rw [List.takeWhile_cons] at h
  split at h
  · have hChars := congrArg String.toList h
    simp only [lower, String.toList_ofList, List.map_cons] at hChars
    exact (List.cons.inj hChars).1
  · exact absurd h (by decide)

/-- What is read of a word that is not LET. -/
theorem wordToken_walked {cs : List Char} {p : Pos} {t : Token} {cur : Cursor}
    (h : wordToken cs p = .ok (some (t, cur))) (hLet : ¬ StartsLet cs) :
    Walked cs p cur ∧ Spanned p t cur := by
  obtain ⟨hTaken, -, -⟩ := readUntil_taken isBlank cs p
  have hWord : lower (String.ofList (readUntil isBlank cs p).1) ≠ "let" := by
    rw [hTaken]
    exact hLet
  simp only [wordToken, if_neg hWord] at h
  cases hk : classify ⟨p, (readUntil isBlank cs p).2.pos⟩ (readUntil isBlank cs p).1 with
  | error e =>
    rw [hk] at h
    cases h
  | ok k =>
    rw [hk] at h
    obtain ⟨rfl, rfl⟩ := Prod.mk.inj (Option.some.inj (Except.ok.inj h))
    exact ⟨readUntil_walked isBlank cs p, rfl⟩

/-- A LET block: line and column stop behind the word LET, the offset goes on over the body. -/
theorem wordToken_let {cs : List Char} {p : Pos} {t : Token} {cur : Cursor}
    (h : wordToken cs p = .ok (some (t, cur))) (hLet : StartsLet cs) :
    ∃ raw body, body ≠ [] ∧ cs = raw ++ (body ++ cur.rest) ∧ Spanned p t cur ∧
      cur.pos = { advance p raw with byteOffset := (advance p (raw ++ body)).byteOffset } := by
  obtain ⟨hTaken, hText, hPos⟩ := readUntil_taken isBlank cs p
  have hWord : lower (String.ofList (readUntil isBlank cs p).1) = "let" := by
    rw [hTaken]
    exact hLet
  simp only [wordToken, if_pos hWord, letToken] at h
  split at h
  · cases h
  · rename_i body rest hBody
    obtain ⟨rfl, rfl⟩ := Prod.mk.inj (Option.some.inj (Except.ok.inj h))
    refine ⟨(readUntil isBlank cs p).1, body, findLetEnd_blank hBody, ?_, rfl, ?_⟩
    · rw [← findLetEnd_text hBody]
      exact hText
    · rw [advance_append, advance_offset, ← hPos]
      rfl

/-- The word LET is looked at behind everything else that a token may start with. -/
theorem nextToken_startsLet {cs : List Char} {p : Pos} (hLet : StartsLet cs) :
    nextToken cs p = wordToken cs p := by
  cases cs with
  | nil => exact absurd hLet (by decide)
  | cons c rest =>
    have hHead := startsLet_head hLet
    have hNe : ∀ d : Char, d.toLower ≠ 'l' → c ≠ d := by
      rintro d hd rfl
      exact hd hHead
    apply nextToken_solid
    · exact fun h => hNe '\\' (by decide) h.1
    · exact fun h => hNe '(' (by decide) h.1
    · exact charLiteral_head (hNe '\'' (by decide)) rest p
    · apply startsString_head
      simp only [List.mem_cons, List.not_mem_nil, or_false, not_or]
      exact ⟨hNe '.' (by decide), hNe 'S' (by decide), hNe 's' (by decide), hNe 'C' (by decide),
        hNe 'c' (by decide)⟩

/-- Everything but a LET block is walked over. -/
theorem nextToken_walked {cs : List Char} {p : Pos} {t : Token} {cur : Cursor}
    (h : nextToken cs p = .ok (some (t, cur))) (hLet : ¬ StartsLet cs) :
    Walked cs p cur ∧ Spanned p t cur := by
  cases cs with
  | nil => cases h
  | cons c rest =>
    rw [nextToken.eq_def] at h
    dsimp only at h
    split at h
    · obtain ⟨rfl, rfl⟩ := Prod.mk.inj (Option.some.inj (Except.ok.inj h))
      have hSeparator := skipSeparator_walked rest (step p c)
      exact ⟨.cons (hSeparator.trans (readToEol_walked _ _)), rfl⟩
    · split at h
      · cases hr : readParenComment (skipSeparator rest (step p c)).rest
            (skipSeparator rest (step p c)).pos p with
        | error e => simp [hr, Except.map] at h
        | ok r =>
          rw [hr] at h
          obtain ⟨rfl, rfl⟩ := Prod.mk.inj (Option.some.inj (Except.ok.inj h))
          have hSeparator := skipSeparator_walked rest (step p c)
          exact ⟨.cons (hSeparator.trans (readParenComment_walked hr)), rfl⟩
      · split at h
        · rename_i hChar
          obtain ⟨rfl, rfl⟩ := Prod.mk.inj (Option.some.inj (Except.ok.inj h))
          exact ⟨charLiteral_walked hChar, rfl⟩
        · split at h
          case h_8 => exact wordToken_walked h hLet
          all_goals
            have hString := stringToken_walked h
          · exact ⟨.cons (.cons (.cons hString.1)), hString.2⟩
          · exact ⟨.cons (.cons (.cons hString.1)), hString.2⟩
          all_goals exact ⟨.cons (.cons hString.1), hString.2⟩

/-- Every token takes some text, and its span has the offsets of that text. -/
theorem nextToken_own {cs : List Char} {p : Pos} {t : Token} {cur : Cursor}
    (hHead : cs.head?.all (fun c => !isBlank c)) (h : nextToken cs p = .ok (some (t, cur))) :
    ∃ own, own ≠ [] ∧ cs = own ++ cur.rest ∧ Spanned p t cur ∧
      cur.pos.byteOffset = p.byteOffset + byteLen own := by
  by_cases hLet : StartsLet cs
  · rw [nextToken_startsLet hLet] at h
    obtain ⟨raw, body, hBody, hText, hSpan, hPos⟩ := wordToken_let h hLet
    refine ⟨raw ++ body, fun hNil => hBody (List.append_eq_nil_iff.mp hNil).2, ?_, hSpan, ?_⟩
    · rw [hText, List.append_assoc]
    · rw [hPos, advance_offset]
  · obtain ⟨⟨own, hText, hPos⟩, hSpan⟩ := nextToken_walked h hLet
    refine ⟨own, ?_, hText, hSpan, ?_⟩
    · rintro rfl
      have hShorter := nextToken_length hHead h
      rw [hText, List.nil_append] at hShorter
      exact Nat.lt_irrefl _ hShorter
    · rw [hPos, advance_offset]

theorem wordToken_some (cs : List Char) (p : Pos) : wordToken cs p ≠ .ok none := by
  intro h
  simp only [wordToken] at h
  split at h
  · simp only [letToken] at h
    split at h <;> cases h
  · cases hk : classify ⟨p, (readUntil isBlank cs p).2.pos⟩ (readUntil isBlank cs p).1 with
    | error e => simp [hk, Except.map] at h
    | ok k => simp [hk, Except.map, codeToken] at h

/-- Only the end of the text has no token. -/
theorem nextToken_none {cs : List Char} {p : Pos} (h : nextToken cs p = .ok none) : cs = [] := by
  cases cs with
  | nil => rfl
  | cons c rest =>
    rw [nextToken.eq_def] at h
    dsimp only at h
    have hString : ∀ kind more q, stringToken kind more q p ≠ .ok none := by
      intro kind more q hNone
      simp only [stringToken] at hNone
      cases hr : readQuotedString kind (skipSeparator more q).rest (skipSeparator more q).pos p with
      | error e => simp [hr, Except.map] at hNone
      | ok r => simp [hr, Except.map, codeToken] at hNone
    split at h
    · cases h
    · split at h
      · cases hr : readParenComment (skipSeparator rest (step p c)).rest
            (skipSeparator rest (step p c)).pos p with
        | error e => simp [hr, Except.map] at h
        | ok r => simp [hr, Except.map] at h
      · split at h
        · cases h
        · split at h
          case h_8 => exact absurd h (wordToken_some _ _)
          all_goals exact absurd h (hString _ _ _)

/-! A whole text. -/

/-- Tokens laid into a text behind `front`, with blanks between them, each read where it stands. -/
inductive Laid : List Char → List Token → List Char → Prop
  | done {front gap : List Char} (hGap : Blank gap) : Laid front [] gap
  | token {front gap own : List Char} {t : Token} {toks : List Token} {cur : Cursor}
      (hGap : Blank gap) (hOwn : own ≠ []) (hStart : t.span.start.byteOffset = byteLen (front ++ gap))
      (hStop : t.span.stop.byteOffset = byteLen (front ++ gap ++ own))
      (hRead : nextToken (own ++ cur.rest) t.span.start = .ok (some (t, cur)))
      (hRest : Laid (front ++ gap ++ own) toks cur.rest) :
      Laid front (t :: toks) (gap ++ (own ++ cur.rest))

theorem lexFrom_nil {cs : List Char} {p : Pos} (h : lexFrom cs p = .ok []) :
    (skipWs cs p).rest = [] := by
  rw [lexFrom.eq_def] at h
  split at h
  · cases h
  · rename_i hNext
    exact nextToken_none hNext
  · obtain ⟨toks, -, hNil⟩ := ok_of_map h
    cases hNil

theorem lexFrom_cons {cs : List Char} {p : Pos} {t : Token} {toks : List Token}
    (h : lexFrom cs p = .ok (t :: toks)) :
    ∃ cur, nextToken (skipWs cs p).rest (skipWs cs p).pos = .ok (some (t, cur)) ∧
      lexFrom cur.rest cur.pos = .ok toks := by
  rw [lexFrom.eq_def] at h
  split at h
  · cases h
  · cases h
  · rename_i t' cur hNext
    obtain ⟨toks', hRest, hCons⟩ := ok_of_map h
    obtain ⟨rfl, rfl⟩ := List.cons.inj hCons
    exact ⟨cur, hNext, hRest⟩

/-- The tokens of a text are laid into it, from any place on. -/
theorem lexFrom_laid {toks : List Token} {cs : List Char} {p : Pos} (h : lexFrom cs p = .ok toks)
    {front : List Char} (hFront : p.byteOffset = byteLen front) : Laid front toks cs := by
  obtain ⟨gap, hGap, hText, hPos⟩ := skipWs_walked cs p
  have hStart : (skipWs cs p).pos.byteOffset = byteLen (front ++ gap) := by
    rw [hPos, advance_offset, hFront, byteLen_append]
  induction toks generalizing cs p front gap with
  | nil =>
    rw [hText, lexFrom_nil h, List.append_nil]
    exact .done hGap
  | cons t toks ih =>
    obtain ⟨cur, hNext, hRest⟩ := lexFrom_cons h
    obtain ⟨own, hOwn, hOwnText, hSpan, hOffset⟩ := nextToken_own (skipWs_head cs p) hNext
    have hStop : cur.pos.byteOffset = byteLen (front ++ gap ++ own) := by
      rw [hOffset, hStart, ← byteLen_append]
    rw [hText, hOwnText]
    rw [hOwnText] at hNext
    unfold Spanned at hSpan
    refine .token hGap hOwn ?_ ?_ ?_ ?_
    · rw [hSpan]
      exact hStart
    · rw [hSpan]
      exact hStop
    · rw [hSpan]
      exact hNext
    · obtain ⟨gap', hGap', hText', hPos'⟩ := skipWs_walked cur.rest cur.pos
      apply ih hRest hStop gap' hGap' hText' hPos'
      rw [hPos', advance_offset, hStop, ← byteLen_append]

theorem Laid.behind {front cs : List Char} {toks : List Token} (h : Laid front toks cs) :
    ∀ t ∈ toks, byteLen front ≤ t.span.start.byteOffset := by
  induction h with
  | done hGap => exact List.forall_mem_nil _
  | token hGap hOwn hStart hStop hRead hRest ih =>
    refine List.forall_mem_cons.mpr ⟨?_, fun t ht => ?_⟩
    · rw [hStart, byteLen_append]
      exact Nat.le_add_right _ _
    · apply le_trans _ (ih t ht)
      rw [byteLen_append, byteLen_append]
      omega

/-- A token of a text: where it stands, and that it is read there. -/
def StandsIn (text : List Char) (t : Token) : Prop :=
  ∃ front own cur, text = front ++ (own ++ cur.rest) ∧ own ≠ [] ∧
    t.span.start.byteOffset = byteLen front ∧ t.span.stop.byteOffset = byteLen (front ++ own) ∧
    nextToken (own ++ cur.rest) t.span.start = .ok (some (t, cur))

def Covers (t : Token) (offset size : Nat) : Prop :=
  t.span.start.byteOffset ≤ offset ∧ offset + size ≤ t.span.stop.byteOffset

theorem Laid.stands {front cs : List Char} {toks : List Token} (h : Laid front toks cs) :
    ∀ t ∈ toks, StandsIn (front ++ cs) t := by
  induction h with
  | done hGap => exact List.forall_mem_nil _
  | @token front gap own t toks cur hGap hOwn hStart hStop hRead hRest ih =>
    refine List.forall_mem_cons.mpr ⟨⟨front ++ gap, own, cur, ?_, hOwn, hStart, hStop, hRead⟩, fun t ht => ?_⟩
    · rw [List.append_assoc]
    · have hIn := ih t ht
      rwa [List.append_assoc, List.append_assoc] at hIn

theorem Laid.ordered {front cs : List Char} {toks : List Token} (h : Laid front toks cs) :
    toks.Pairwise fun a b => a.span.stop.byteOffset ≤ b.span.start.byteOffset := by
  induction h with
  | done hGap => exact .nil
  | token hGap hOwn hStart hStop hRead hRest ih =>
    apply List.Pairwise.cons _ ih
    intro b hb
    rw [hStop]
    exact hRest.behind b hb

/-- A character that is no blank stands inside a token. -/
theorem Laid.covered {front cs : List Char} {toks : List Token} (h : Laid front toks cs)
    {before back : List Char} {c : Char} (hText : cs = before ++ c :: back) (hc : isBlank c = false) :
    ∃ t ∈ toks, Covers t (byteLen (front ++ before)) c.utf8Size := by
  induction h generalizing before with
  | @done front gap hGap =>
    have hBlank := hGap c (by rw [hText]; simp)
    rw [hc] at hBlank
    cases hBlank
  | @token front gap own t toks cur hGap hOwn hStart hStop hRead hRest ih =>
    have hPast : ∃ b, before = gap ++ b ∧ own ++ cur.rest = b ++ c :: back := by
      rcases List.append_eq_append_iff.mp hText with ⟨b, hBefore, hRest⟩ | ⟨b, hGapText, hRest⟩
      · exact ⟨b, hBefore, hRest⟩
      · cases b with
        | nil => exact ⟨[], by simpa using hGapText.symm, by simpa using hRest.symm⟩
        | cons d b =>
          -- the character would be one of the gap
          obtain ⟨rfl, -⟩ := List.cons.inj hRest
          have hBlank := hGap c (by rw [hGapText]; simp)
          rw [hc] at hBlank
          cases hBlank
    obtain ⟨b, rfl, hBehind⟩ := hPast
    have hInside : ∀ o, own = b ++ c :: o → Covers t (byteLen (front ++ (gap ++ b))) c.utf8Size := by
      rintro o rfl
      unfold Covers
      rw [hStart, hStop]
      simp only [byteLen_append, byteLen_cons]
      omega
    rcases List.append_eq_append_iff.mp hBehind with ⟨o, hb, hRestText⟩ | ⟨o, hOwnText, hRestText⟩
    · obtain ⟨t', ht, hCovers⟩ := @ih o hRestText
      refine ⟨t', List.mem_cons_of_mem _ ht, ?_⟩
      rw [hb]
      simpa using hCovers
    · cases o with
      | nil =>
        obtain ⟨t', ht, hCovers⟩ := @ih [] (by simpa using hRestText.symm)
        refine ⟨t', List.mem_cons_of_mem _ ht, ?_⟩
        rw [show b = own by simpa using hOwnText.symm]
        simpa using hCovers
      | cons d o =>
        obtain ⟨rfl, -⟩ := List.cons.inj hRestText
        exact ⟨t, List.mem_cons_self, hInside o hOwnText⟩

/-! The run. -/

/-- One step of the run, from where a token is looked for to where the next one is. -/
def TokenStep (cur next : Cursor) : Prop :=
  ∃ t, nextToken (skipWs cur.rest cur.pos).rest (skipWs cur.rest cur.pos).pos = .ok (some (t, next))

/-- The next token starts with the word LET. -/
def LetAhead (cur : Cursor) : Prop := StartsLet (skipWs cur.rest cur.pos).rest

def ExactSpan (text : List Char) (t : Token) : Prop :=
  ExactPos text t.span.start ∧ ExactPos text t.span.stop

instance (text : List Char) (t : Token) : Decidable (ExactSpan text t) :=
  inferInstanceAs (Decidable (_ ∧ _))

/-- The block of a LET ends in another line or column than its span says. -/
theorem let_not_exact {front cs : List Char} {t : Token} {cur : Cursor} (hLet : StartsLet cs)
    (h : nextToken cs (advance Pos.start front) = .ok (some (t, cur))) :
    ¬ ExactPos (front ++ cs) t.span.stop := by
  rw [nextToken_startsLet hLet] at h
  obtain ⟨raw, body, hBody, hText, hSpan, hPos⟩ := wordToken_let h hLet
  unfold Spanned at hSpan
  have hPlace : front ++ cs = (front ++ (raw ++ body)) ++ cur.rest := by
    rw [hText]
    simp only [List.append_assoc]
  have hOffset : cur.pos.byteOffset = byteLen (front ++ (raw ++ body)) := by
    rw [hPos]
    show (advance (advance Pos.start front) (raw ++ body)).byteOffset = _
    rw [← advance_append, advance_start]
  rw [hSpan, hPlace, exactPos_iff hOffset]
  intro hExact
  rw [hPos] at hExact
  have hEnd : advance Pos.start (front ++ (raw ++ body)) =
      advance (advance (advance Pos.start front) raw) body := by
    rw [advance_append, advance_append]
  rw [hEnd] at hExact
  have hMoves := advance_moves (advance (advance Pos.start front) raw) hBody
  have hLine := congrArg Pos.line hExact
  have hCol := congrArg Pos.col hExact
  exact hMoves.elim (fun h => h hLine.symm) fun h => h hCol.symm

theorem letFree_step {cs : List Char} {p : Pos} {t : Token} {cur : Cursor}
    (hNext : nextToken (skipWs cs p).rest (skipWs cs p).pos = .ok (some (t, cur))) :
    (∀ last, Relation.ReflTransGen TokenStep ⟨cs, p⟩ last → ¬ LetAhead last) ↔
      ¬ LetAhead ⟨cs, p⟩ ∧ ∀ last, Relation.ReflTransGen TokenStep cur last → ¬ LetAhead last := by
  constructor
  · exact fun hFree => ⟨hFree _ .refl, fun last hReached => hFree last (.head ⟨t, hNext⟩ hReached)⟩
  · rintro ⟨hHere, hFree⟩ last hReached
    rcases hReached.cases_head with rfl | ⟨next, ⟨t', hStep⟩, hMore⟩
    · exact hHere
    · rw [hNext] at hStep
      obtain ⟨-, rfl⟩ := Prod.mk.inj (Option.some.inj (Except.ok.inj hStep))
      exact hFree last hMore

/-- Behind an exact place the spans stay exact up to the first LET, and no further. -/
theorem lexFrom_exact_iff {toks : List Token} {cs : List Char} {p : Pos}
    (h : lexFrom cs p = .ok toks) {front : List Char} (hFront : p = advance Pos.start front) :
    (∀ t ∈ toks, ExactSpan (front ++ cs) t) ↔
      ∀ cur, Relation.ReflTransGen TokenStep ⟨cs, p⟩ cur → ¬ LetAhead cur := by
  induction toks generalizing cs p front with
  | nil =>
    refine ⟨fun _ cur hReached => ?_, fun _ => List.forall_mem_nil _⟩
    have hDone := lexFrom_nil h
    rcases hReached.cases_head with rfl | ⟨next, ⟨t, hStep⟩, -⟩
    · unfold LetAhead
      rw [hDone]
      decide
    · rw [hDone] at hStep
      cases hStep
  | cons t toks ih =>
    obtain ⟨cur, hNext, hRest⟩ := lexFrom_cons h
    obtain ⟨gap, -, hText, hPos⟩ := skipWs_walked cs p
    have hHere : (skipWs cs p).pos = advance Pos.start (front ++ gap) := by
      rw [hPos, hFront, advance_append]
    have hAll : front ++ cs = (front ++ gap) ++ (skipWs cs p).rest := by
      rw [List.append_assoc, ← hText]
    by_cases hLet : StartsLet (skipWs cs p).rest
    · constructor
      · intro hExact
        rw [hHere] at hNext
        have hStop := (hExact t List.mem_cons_self).2
        rw [hAll] at hStop
        exact absurd hStop (let_not_exact hLet hNext)
      · exact fun hFree => absurd hLet (hFree ⟨cs, p⟩ .refl)
    · obtain ⟨⟨own, hOwn, hOwnPos⟩, hSpan⟩ := nextToken_walked hNext hLet
      unfold Spanned at hSpan
      have hBehind : cur.pos = advance Pos.start (front ++ gap ++ own) := by
        rw [hOwnPos, hHere, ← advance_append]
      have hWhole : front ++ cs = (front ++ gap ++ own) ++ cur.rest := by
        rw [hAll, hOwn]
        simp only [List.append_assoc]
      have hToken : ExactSpan (front ++ cs) t := by
        unfold ExactSpan
        rw [hSpan]
        constructor
        · rw [hAll, hHere]
          exact (exactPos_iff (by rw [advance_start])).mpr rfl
        · rw [hWhole, hBehind]
          exact (exactPos_iff (by rw [advance_start])).mpr rfl
      have hMore := ih hRest hBehind
      rw [← hWhole] at hMore
      rw [List.forall_mem_cons, letFree_step hNext, hMore]
      exact ⟨fun hExact => ⟨hLet, hExact.2⟩, fun hFree => ⟨hToken, hFree.2⟩⟩

/-- What spans should be: in order and apart, on all but the blanks, each where its token is read, and
with the line and the column of its offsets. -/
structure SpansExact (text : List Char) (toks : List Token) : Prop where
  ordered : toks.Pairwise fun a b => a.span.stop.byteOffset ≤ b.span.start.byteOffset
  stands : ∀ t ∈ toks, StandsIn text t
  covered : ∀ before c back, text = before ++ c :: back → isBlank c = false →
    ∃ t ∈ toks, Covers t (byteLen before) c.utf8Size
  placed : ∀ t ∈ toks, ExactSpan text t

theorem lex_laid {source : String} {toks : List Token} (h : lex source = .ok toks) :
    Laid [] toks source.toList := lexFrom_laid h rfl

/-- The spans of a text are exact when no token of it starts with the word LET, and only then. -/
theorem lex_spans {source : String} {toks : List Token} (h : lex source = .ok toks) :
    SpansExact source.toList toks ↔
      ∀ cur, Relation.ReflTransGen TokenStep ⟨source.toList, Pos.start⟩ cur → ¬ LetAhead cur := by
  have hLaid := lex_laid h
  have hExactIff := @lexFrom_exact_iff _ _ _ h [] rfl
  rw [← hExactIff]
  constructor
  · exact fun hSpans => hSpans.placed
  · intro hExact
    refine ⟨hLaid.ordered, hLaid.stands, fun before c back hText hc => ?_, hExact⟩
    exact hLaid.covered hText hc

/-- A comment over two lines, a string and a word behind them. -/
theorem lex_spans_comment :
    ∃ toks, lex "( a\nb ) .\" c\" dup" = .ok toks ∧
      SpansExact "( a\nb ) .\" c\" dup".toList toks := by
  let source := "( a\nb ) .\" c\" dup"
  have hExact : (lex source).toOption.map (fun toks => decide (∀ t ∈ toks, ExactSpan source.toList t)) =
      some true := by
    decide +kernel
  cases h : lex source with
  | error e =>
    rw [h] at hExact
    cases hExact
  | ok toks =>
    rw [h] at hExact
    have hAll : ∀ t ∈ toks, ExactSpan ([] ++ source.toList) t := of_decide_eq_true (Option.some.inj hExact)
    exact ⟨toks, rfl, (lex_spans h).mpr ((lexFrom_exact_iff h rfl).mp hAll)⟩

/-- The block of a LET over two lines, and what stands behind it. -/
theorem lex_not_spans :
    ¬ ∀ (source : String) (toks : List Token), lex source = .ok toks →
      SpansExact source.toList toks := by
  intro hAll
  let source := "let ( x ) -> ( y )\n= x + 1 end\n5 dup"
  have hExact : (lex source).toOption.map (fun toks => decide (∀ t ∈ toks, ExactSpan source.toList t)) =
      some false := by
    decide +kernel
  cases h : lex source with
  | error e =>
    rw [h] at hExact
    cases hExact
  | ok toks =>
    rw [h] at hExact
    exact of_decide_eq_false (Option.some.inj hExact) (hAll source toks h).placed

end FactorForth.Correctness
