import FactorForth.Compiler.Escapes

/-! What is read back of the literals: each ends at the quote that the compiler wrote, and its text is the
original one unless a line break was left as it stands. -/

namespace FactorForth.Correctness
open FactorForth.Library
open FactorForth.Compiler

/-! The escapers. -/

theorem factorEscape_spells (c : Char) : factorQuoting.Spells c (factorEscapeChar c) := by
  fun_cases factorEscapeChar c with
  | case1 => exact .named rfl
  | case2 => exact .named rfl
  | case3 => exact .named rfl
  | case4 => exact .named rfl
  | case5 => exact .named rfl
  | case6 c hSlash hQuote => exact .raw hQuote hSlash

theorem toList_replaceChar (c : Char) (new s : String) :
    (replaceChar c new s).toList = s.toList.flatMap fun d => if d = c then new.toList else [d] :=
  String.toList_ofList

/-- What the two passes make of one character. -/
def letErrorEscapeChar (c : Char) : List Char :=
  if c = '\\' then ['\\', '\\'] else if c = '"' then ['\\', '"'] else [c]

/-- What the report's three passes make of one character. -/
def seeEscapeChar (c : Char) : List Char :=
  if c = '\n' then ['\\', 'n'] else letErrorEscapeChar c

theorem letErrorEscape_toList (e : String) :
    (letErrorEscape e).toList = e.toList.flatMap letErrorEscapeChar := by
  rw [letErrorEscape, toList_replaceChar, toList_replaceChar, List.flatMap_assoc]
  refine List.flatMap_congr fun c _ => ?_
  unfold letErrorEscapeChar
  split
  · rfl
  · exact List.flatMap_singleton _ c

theorem seeEscape_toList (report : String) :
    (seeEscape report).toList = report.toList.flatMap seeEscapeChar := by
  have hPasses : (seeEscape report).toList = (letErrorEscape report).toList.flatMap fun d =>
      if d = '\n' then ['\\', 'n'] else [d] := toList_replaceChar _ _ _
  rw [hPasses, letErrorEscape_toList, List.flatMap_assoc]
  refine List.flatMap_congr fun c _ => ?_
  unfold seeEscapeChar letErrorEscapeChar
  by_cases hSlash : c = '\\'
  · subst hSlash
    rfl
  by_cases hQuote : c = '"'
  · subst hQuote
    rfl
  rw [if_neg hSlash, if_neg hQuote]
  exact List.flatMap_singleton _ c

theorem letErrorEscape_spells (c : Char) : factorQuoting.Spells c (letErrorEscapeChar c) := by
  unfold letErrorEscapeChar
  split
  · rename_i h
    subst h
    exact .named rfl
  · rename_i hSlash
    split
    · rename_i h
      subst h
      exact .named rfl
    · rename_i hQuote
      exact .raw hQuote hSlash

theorem seeEscape_spells (c : Char) : factorQuoting.Spells c (seeEscapeChar c) := by
  unfold seeEscapeChar
  split
  · rename_i h
    subst h
    exact .named rfl
  · exact letErrorEscape_spells c

/-! Which line breaks an escaper leaves as they stand. -/

theorem mem_lineBreaks {c : Char} (h : isLineBreak c = true) : c ∈ lineBreaks := of_decide_eq_true h

theorem factorEscape_break {c : Char} (h : isLineBreak c = true) :
    factorEscapeChar c = [c] → c = '\n' ∨ c = '\r' → False := by
  rintro hRaw (rfl | rfl)
  · cases hRaw
  · cases hRaw

theorem factorEscape_raw : ∀ c ∈ lineBreaks, factorEscapeChar c = [c] ∨ c = '\n' ∨ c = '\r' := by
  intro c hc
  have hAll : (lineBreaks.all fun c => decide (factorEscapeChar c = [c] ∨ c = '\n' ∨ c = '\r')) = true := by decide
  exact of_decide_eq_true (List.all_eq_true.mp hAll c hc)

theorem seeEscape_raw : ∀ c ∈ lineBreaks, seeEscapeChar c = [c] ∨ c = '\n' := by
  intro c hc
  have hAll : (lineBreaks.all fun c => decide (seeEscapeChar c = [c] ∨ c = '\n')) = true := by decide
  exact of_decide_eq_true (List.all_eq_true.mp hAll c hc)

theorem letErrorEscape_raw : ∀ c ∈ lineBreaks, letErrorEscapeChar c = [c] := by
  intro c hc
  have hAll : (lineBreaks.all fun c => decide (letErrorEscapeChar c = [c])) = true := by decide
  exact of_decide_eq_true (List.all_eq_true.mp hAll c hc)

/-! Reading back. -/

/-- A literal with one of the escapers comes back up to its quote. -/
theorem readBack_escaped {esc : Char → List Char} (hEsc : ∀ c, factorQuoting.Spells c (esc c))
    (text rest : List Char) :
    ∃ t, readBack ('"' :: text.flatMap esc ++ '"' :: rest) = some (t, rest) ∧
      (t = text ↔ ∀ c ∈ text, isLineBreak c = true → esc c = [c] → c = '\n') := by
  obtain ⟨t, hRead, _, hSame⟩ := Quoting.read_escaped hEsc text rest
  exact ⟨t, hRead, hSame⟩

/-- No line breaks but line feeds. -/
def OnlyFeeds (s : String) : Prop := ∀ c ∈ s.toList, isLineBreak c = true → c = '\n'

instance (s : String) : Decidable (OnlyFeeds s) := List.decidableBAll _ s.toList

theorem literal_kept (value : String) (kind : StringKind) (rest : List Char) :
    ∃ t, readBack ((literalText value kind).toList ++ rest) =
        some (t, (literalSuffix kind).toList ++ rest) ∧
      (t = value.toList ↔ ∀ c ∈ value.toList, isLineBreak c = true → c = '\n' ∨ c = '\r') := by
  obtain ⟨t, hRead, hSame⟩ := readBack_escaped factorEscape_spells value.toList
    ((literalSuffix kind).toList ++ rest)
  refine ⟨t, ?_, hSame.trans (forall₂_congr fun c _ => imp_congr_right fun hBreak => ?_)⟩
  · rw [← hRead, literalText, factorEscape]
    simp
  · rcases factorEscape_raw c (mem_lineBreaks hBreak) with hRaw | hEscaped
    · exact ⟨fun h => .inl (h hRaw), fun h hRaw => (factorEscape_break hBreak hRaw h).elim⟩
    · exact iff_of_true (fun hRaw => (factorEscape_break hBreak hRaw hEscaped).elim) hEscaped

theorem report_kept (report : String) (rest : List Char) :
    ∃ t, readBack ('"' :: (seeEscape report).toList ++ '"' :: rest) = some (t, rest) ∧
      (t = report.toList ↔ OnlyFeeds report) := by
  obtain ⟨t, hRead, hSame⟩ := readBack_escaped seeEscape_spells report.toList rest
  refine ⟨t, ?_, hSame.trans (forall₂_congr fun c _ => imp_congr_right fun hBreak => ?_)⟩
  · rw [seeEscape_toList]
    exact hRead
  · rcases seeEscape_raw c (mem_lineBreaks hBreak) with hRaw | rfl
    · exact ⟨fun h => h hRaw, fun h _ => h⟩
    · exact iff_of_true (fun _ => rfl) rfl

theorem feeds_append {a b : String} : OnlyFeeds (a ++ b) ↔ OnlyFeeds a ∧ OnlyFeeds b := by
  unfold OnlyFeeds
  rw [String.toList_append]
  exact List.forall_mem_append

theorem letError_kept (e : String) (rest : List Char) :
    ∃ t, readBack ((letErrorText e).toList ++ rest) = some (t, printSuffix.toList ++ rest) ∧
      (t = (letErrorHead ++ e).toList ↔ OnlyFeeds e) := by
  obtain ⟨t, hRead, hSame⟩ := readBack_escaped letErrorEscape_spells (letErrorHead ++ e).toList
    (printSuffix.toList ++ rest)
  have hHead : letErrorHead.toList.flatMap letErrorEscapeChar = letErrorHead.toList := by decide
  have hFeeds : OnlyFeeds letErrorHead := by decide
  refine ⟨t, ?_, hSame.trans ?_⟩
  · have hText : (letErrorHead ++ e).toList.flatMap letErrorEscapeChar =
        letErrorHead.toList ++ (letErrorEscape e).toList := by
      rw [String.toList_append, List.flatMap_append, hHead, letErrorEscape_toList]
    rw [← hRead, hText, letErrorText]
    simp
  · rw [← and_iff_right (a := OnlyFeeds letErrorHead) (b := OnlyFeeds e) hFeeds, ← feeds_append]
    refine forall₂_congr fun c _ => imp_congr_right fun hBreak => ?_
    have hRaw := letErrorEscape_raw c (mem_lineBreaks hBreak)
    exact ⟨fun h => h hRaw, fun h _ => h⟩

/-! The condition of a report. -/

theorem feeds_join {l : List String} : OnlyFeeds (String.join l) ↔ ∀ s ∈ l, OnlyFeeds s := by
  unfold OnlyFeeds
  rw [String.toList_join]
  exact List.forall_mem_flatMap

/-- The pieces of a record that a report shows hold no line breaks but line feeds. -/
structure DocFeeds (doc : WordDoc) : Prop where
  kind : OnlyFeeds doc.kind
  effect : OnlyFeeds doc.effect
  detail : OnlyFeeds doc.detail
  source : ∀ line ∈ sourceLines doc.source, OnlyFeeds line

/-- An optional piece, with the text around it. -/
theorem feeds_optional {s before after : String} (hBefore : OnlyFeeds before) (hAfter : OnlyFeeds after) :
    OnlyFeeds (if s.isEmpty then "" else before ++ s ++ after) ↔ OnlyFeeds s := by
  split
  · rename_i h
    rw [String.isEmpty_iff.mp h]
  · rw [feeds_append, feeds_append]
    exact ⟨fun h => h.1.2, fun h => ⟨⟨hBefore, h⟩, hAfter⟩⟩

theorem feeds_source (source : String) :
    OnlyFeeds (if source.isEmpty then ""
      else "  source:\n" ++ String.join ((sourceLines source).map fun l => "    " ++ l ++ "\n")) ↔
      ∀ line ∈ sourceLines source, OnlyFeeds line := by
  have hHead : OnlyFeeds "  source:\n" := by decide
  have hIndent : OnlyFeeds "    " := by decide
  have hEnd : OnlyFeeds "\n" := by decide
  split
  · rename_i h
    rw [String.isEmpty_iff.mp h]
    exact iff_of_true (by decide) (by decide)
  · rw [feeds_append, feeds_join, List.forall_mem_map, and_iff_right hHead]
    refine forall₂_congr fun line _ => ?_
    rw [feeds_append, feeds_append]
    exact ⟨fun h => h.1.2, fun h => ⟨⟨hIndent, h⟩, hEnd⟩⟩

theorem feeds_docReport (name : String) (doc : WordDoc) :
    OnlyFeeds (docReport name doc) ↔ OnlyFeeds name ∧ DocFeeds doc := by
  have hGap : OnlyFeeds "   " := by decide
  have hEnd : OnlyFeeds "\n" := by decide
  have hEffect := feeds_optional (s := doc.effect) hGap (show OnlyFeeds "" by decide)
  have hDetail := feeds_optional (s := doc.detail) (show OnlyFeeds "  " by decide) hEnd
  rw [String.append_empty] at hEffect
  simp only [docReport, feeds_append, feeds_source, hEffect, hDetail]
  exact ⟨fun ⟨⟨⟨⟨⟨⟨hName, _⟩, hKind⟩, hEffect⟩, _⟩, hDetail⟩, hSource⟩ =>
      ⟨hName, hKind, hEffect, hDetail, hSource⟩,
    fun ⟨hName, hDoc⟩ => ⟨⟨⟨⟨⟨⟨hName, hGap⟩, hDoc.kind⟩, hDoc.effect⟩, hEnd⟩, hDoc.detail⟩,
      hDoc.source⟩⟩

theorem lineBreak_not_digit : ∀ c ∈ lineBreaks, c.isDigit = false := by
  intro c hc
  have hAll : (lineBreaks.all fun c => decide (c.isDigit = false)) = true := by decide
  exact of_decide_eq_true (List.all_eq_true.mp hAll c hc)

theorem feeds_toString (n : Nat) : OnlyFeeds (toString n) := by
  intro c hc hBreak
  have hDigits : (toString n).toList = Nat.toDigits 10 n := Nat.toList_repr
  rw [hDigits] at hc
  have hDigit := Nat.isDigit_of_mem_toDigits (by decide) (by decide) hc
  rw [lineBreak_not_digit c (mem_lineBreaks hBreak)] at hDigit
  cases hDigit

theorem feeds_letter : ∀ i < 26, OnlyFeeds (String.singleton (Char.ofNat ('a'.toNat + i))) := by
  decide

theorem feeds_effectLetter (i : Nat) : OnlyFeeds (effectLetter i) := by
  unfold effectLetter
  split
  · rename_i h
    exact feeds_letter i h
  · exact feeds_append.mpr ⟨by decide, feeds_toString _⟩

theorem feeds_renderEffectCounts (inputs outputs : Nat) :
    OnlyFeeds (renderEffectCounts inputs outputs) := by
  have hLetter (i : Nat) : OnlyFeeds (effectLetter i ++ " ") :=
    feeds_append.mpr ⟨feeds_effectLetter i, by decide⟩
  have hLetters (f : Nat → Nat) (l : List Nat) :
      OnlyFeeds (String.join (l.map fun i => effectLetter (f i) ++ " ")) :=
    feeds_join.mpr (List.forall_mem_map.mpr fun i _ => hLetter (f i))
  have hInputs := hLetters id (List.range inputs)
  have hOutputs := hLetters (inputs + ·) (List.range outputs)
  rw [renderEffectCounts, feeds_append, feeds_append, feeds_append, feeds_append]
  exact ⟨⟨⟨⟨by decide, hInputs⟩, by decide⟩, hOutputs⟩, by decide⟩

theorem feeds_builtinReport (name lc : String) : OnlyFeeds (builtinReport name lc) ↔ OnlyFeeds name := by
  have hCore : OnlyFeeds "   builtin (core word)" := by decide
  have hGap : OnlyFeeds "   " := by decide
  have hEnd : OnlyFeeds "\n" := by decide
  rw [builtinReport, feeds_append, feeds_append, feeds_append]
  refine ⟨fun h => h.1.1.1, fun h => ⟨⟨⟨h, hCore⟩, ?_⟩, hEnd⟩⟩
  split
  · exact feeds_append.mpr ⟨hGap, feeds_renderEffectCounts _ _⟩
  · decide

/-- The name asked for and the record found for it hold no line breaks but line feeds. -/
def ReportFeeds (docs : Dict String WordDoc) (name : String) : Prop :=
  OnlyFeeds name ∧ ∀ doc, docs.lookup (lower name) = some doc → DocFeeds doc

theorem feeds_seeReport (docs : Dict String WordDoc) (name : String) :
    OnlyFeeds (seeReport docs name) ↔ ReportFeeds docs name := by
  unfold seeReport ReportFeeds
  dsimp only
  cases hDoc : docs.lookup (lower name) with
  | some doc =>
    rw [feeds_docReport]
    refine and_congr_right fun _ => ⟨fun h found hFound => ?_, fun h => h doc rfl⟩
    exact Option.some.inj hFound ▸ h
  | none =>
    rw [and_iff_left (fun doc h => nomatch h)]
    dsimp only
    split
    · exact feeds_builtinReport name _
    · rw [feeds_append]
      exact and_iff_left (by decide)

theorem see_kept (docs : Dict String WordDoc) (name : String) (rest : List Char) :
    ∃ t, readBack ((seeText docs name).toList ++ rest) = some (t, printSuffix.toList ++ rest) ∧
      (t = (seeReport docs name).toList ↔ ReportFeeds docs name) := by
  obtain ⟨t, hRead, hSame⟩ := report_kept (seeReport docs name) (printSuffix.toList ++ rest)
  refine ⟨t, ?_, hSame.trans (feeds_seeReport docs name)⟩
  rw [← hRead, seeText]
  simp

/-- Every literal ends at the quote written behind it. A string literal comes back as it was unless it
holds a line break other than line feed and return, a report or an error of a LET form unless it holds one
other than a line feed. -/
theorem text_kept (rest : List Char) :
    (∀ value kind, ∃ t, readBack ((literalText value kind).toList ++ rest) =
        some (t, (literalSuffix kind).toList ++ rest) ∧
      (t = value.toList ↔ ∀ c ∈ value.toList, isLineBreak c = true → c = '\n' ∨ c = '\r')) ∧
    (∀ docs name, ∃ t, readBack ((seeText docs name).toList ++ rest) =
        some (t, printSuffix.toList ++ rest) ∧
      (t = (seeReport docs name).toList ↔ ReportFeeds docs name)) ∧
    ∀ e, ∃ t, readBack ((letErrorText e).toList ++ rest) = some (t, printSuffix.toList ++ rest) ∧
      (t = (letErrorHead ++ e).toList ↔ OnlyFeeds e) :=
  ⟨fun value kind => literal_kept value kind rest, fun docs name => see_kept docs name rest,
    fun e => letError_kept e rest⟩

/-- The record of a word with a lone return in its source. -/
def returnDocs : Dict String WordDoc :=
  [("foo", ⟨"colon definition", "", ": foo 1\rdrop ;", ""⟩)]

/-- The report on it is printed with a line feed in place of the return. -/
theorem return_lost :
    readBack (seeText returnDocs "foo").toList =
        some ("foo   colon definition\n  source:\n    : foo 1\ndrop ;\n".toList,
          printSuffix.toList) ∧
      seeReport returnDocs "foo" = "foo   colon definition\n  source:\n    : foo 1\rdrop ;\n" ∧
      ¬ ∀ docs name rest, readBack ((seeText docs name).toList ++ rest) =
        some ((seeReport docs name).toList, printSuffix.toList ++ rest) := by
  refine ⟨by decide +kernel, by decide +kernel, fun h => ?_⟩
  have hLost : readBack (seeText returnDocs "foo").toList ≠
      some ((seeReport returnDocs "foo").toList, printSuffix.toList) := by decide +kernel
  have hKept := h returnDocs "foo" []
  rw [List.append_nil, List.append_nil] at hKept
  exact hLost hKept

end FactorForth.Correctness
