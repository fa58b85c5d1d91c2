import Mathlib.Data.List.Perm.Basic
import FactorForth.Correctness.RecordedEffects

/-! The names of the emitted words. A user's name is mangled by one rule, but the words that the
compiler adds to a class, a generic or a method are named by what is put behind a mangled name. -/

namespace FactorForth.Correctness
open FactorForth.Library FactorForth.Compiler

/-! Where the name of an emitted word comes from. -/

/-- The storage of a name. -/
inductive StorageKind where
  | value
  | variable
  | collection
  | template
  | create
deriving DecidableEq, Repr

def StorageKind.stem : StorageKind → String
  | .value => "nf-value-"
  | .variable => "nf-var-"
  | .collection => "nf-coll-"
  | .template => "nf-tmpl-"
  | .create => "nf-create-"

/-- The image of a name, a word named behind the image of a name, a storage symbol, or a word of raw
Factor. -/
inductive Family where
  | image
  | predicate
  | shadow (kind : MethodKind)
  | helper (number : Nat)
  | storage (kind : StorageKind)
  | raw
deriving DecidableEq, Repr

structure Origin where
  family : Family
  base : String
deriving DecidableEq, Repr

def shadowSuffix : MethodKind → String
  | .primary => ":primary"
  | .before => ":before"
  | .after => ":after"

/-- What is put behind a mangled name. -/
def Family.suffix? : Family → Option String
  | .predicate => some "?"
  | .shadow kind => some (shadowSuffix kind)
  | .helper number => some ("-mh" ++ toString number)
  | _ => none

def Origin.word (o : Origin) : String :=
  match o.family with
  | .image => factorUserName o.base
  | .storage kind => kind.stem ++ o.base
  | .raw => o.base
  | .predicate => factorUserName o.base ++ "?"
  | .shadow kind => factorUserName o.base ++ shadowSuffix kind
  | .helper number => factorUserName o.base ++ "-mh" ++ toString number

/-! The words of the emitted source. -/

/-- The words that a form adds to the user's vocabulary; `rawWords` is what Factor's parser finds in a
raw source. The accessors of a tuple are shared words of another vocabulary. -/
def Line.words (rawWords : String → List String) : Line → List String
  | .symbol s => [s]
  | .constant name _ => [name]
  | .colon name _ _ _ => [name]
  | .localsColon name _ _ _ => [name]
  | .tuple name _ _ => [name, name ++ "?"]
  | .generic name _ => [name]
  | .raw source => rawWords source
  | _ => []

def image (n : String) : Origin := ⟨.image, n⟩

def stored (kind : StorageKind) (name : String) : List Origin :=
  [⟨.storage kind, lower name⟩, image (lower name)]

def slotOrigins (n s : String) : List Origin :=
  [image (n ++ ">" ++ s), image (s ++ ">>" ++ n), image (n ++ "." ++ s ++ "!")]

def classOrigins (n : String) (slots : List String) : List Origin :=
  image n :: ⟨.predicate, n⟩ :: image ("<" ++ n ++ ">") :: slots.flatMap (slotOrigins n)

def genericOrigins (n : String) (wrapped : Bool) : List Origin :=
  if wrapped then [⟨.shadow .primary, n⟩, ⟨.shadow .before, n⟩, ⟨.shadow .after, n⟩, image n]
  else [image n]

section
variable (rawWords : String → List String)

/-- The words of the declaration of an item. -/
def Item.declaredOrigins (e : Eval) : Item → List Origin
  | .variable v => stored .variable v.name
  | .constant c => [image (lower c.name)]
  | .create c => stored .create c.name
  | .collection c => stored .collection c.name
  | .templateInstance t => stored .template t.name
  | .value v => stored .value v.name
  | .class_ c => classOrigins (lower c.name) (slotsOf e.sema.classSlots c)
  | .generic g => genericOrigins (lower g.name) (e.aux.contains (lower g.name))
  | .rawFactor raw => (rawWords raw.source).map fun s => ⟨.raw, s⟩
  | _ => []

def Item.colonOrigins : Item → List Origin
  | .definition d => [image (lower d.name)]
  | _ => []

/-- The helper words of methods, numbered by the counter of the process. -/
def helperOrigins : List Item → Nat → List Origin
  | [], _ => []
  | .method m :: items, helper =>
    if methodUsesHelper m then
      ⟨.helper (helper + 1), lower m.genericName⟩ :: helperOrigins items (helper + 1)
    else helperOrigins items helper
  | _ :: items, helper => helperOrigins items helper

/-- All words of a compile, in the order in which they are written. -/
def origins (e : Eval) : List Origin :=
  e.items.flatMap (Item.declaredOrigins rawWords e) ++ helperOrigins e.items e.helper ++
    e.items.flatMap Item.colonOrigins

variable {rawWords} {e : Eval}

theorem declaration_words (hw : Wide e.sema) (item : Item) :
    (item.declaration e.sema e.aux).flatMap (Line.words rawWords) =
      (Item.declaredOrigins rawWords e item).map Origin.word := by
  match item with
  | .variable v =>
    have hNarrow : e.sema.escape.lookup (lower v.name) ≠ some .narrow := hw _
    simp only [Item.declaration, emitVariable, if_neg hNarrow]
    rfl
  | .constant c =>
    simp only [Item.declaration, emitConstant]
    cases c.value <;> rfl
  | .class_ c =>
    simp only [Item.declaration, emitClass, Item.declaredOrigins, classOrigins, List.flatMap_cons,
      List.map_cons]
    have hSlots : ∀ slots : List String,
        (slots.flatMap (emitSlotWords (lower c.name))).flatMap (Line.words rawWords) =
          (slots.flatMap (slotOrigins (lower c.name))).map Origin.word := by
      intro slots
      rw [List.flatMap_assoc, List.map_flatMap]
      rfl
    rw [hSlots]
    rfl
  | .generic g =>
    simp only [Item.declaration, emitGeneric, Item.declaredOrigins, genericOrigins]
    split
    · rw [List.flatMap_append, List.flatMap_append]
      have hDefaults : (if 0 < g.effect.inputs.length then
          [Line.method (mangled g.name ++ ":before") (List.replicate g.effect.inputs.length "object")
              (ndrop g.effect.inputs.length),
            .method (mangled g.name ++ ":after") (List.replicate g.effect.inputs.length "object")
              (ndrop g.effect.inputs.length)]
          else []).flatMap (Line.words rawWords) = [] := by
        split <;> rfl
      rw [hDefaults]
      rfl
    · rfl
  | .rawFactor raw =>
    show rawWords raw.source ++ [] = _
    rw [List.append_nil]
    simp [Item.declaredOrigins, Origin.word, Function.comp_def]
  | .definition _ | .topLevel _ _ | .create _ | .collection _ | .template _ | .templateInstance _
  | .value _ | .method _ | .needs _ _ => rfl

theorem methods_words (items : List Item) (helper : Nat) :
    (emitMethods e.sema e.aux items helper).1.flatMap (Line.words rawWords) =
      (helperOrigins items helper).map Origin.word := by
  induction items generalizing helper with
  | nil => rfl
  | cons item items ih =>
    cases item with
    | method m =>
      rw [emitMethods_method, List.flatMap_append, ih, helperOrigins]
      unfold emitMethod
      split
      · rfl
      · rfl
    | _ => exact ih helper

theorem colon_words (item : Item) :
    (item.colonWord e.sema).flatMap (Line.words rawWords) =
      (Item.colonOrigins item).map Origin.word := by
  cases item with
  | definition d =>
    simp only [Item.colonWord, emitDefinition]
    split
    · rfl
    · split
      · split <;> rfl
      · rfl
  | _ => rfl

theorem execution_words (item : Item) :
    (item.execution e.sema).flatMap (Line.words rawWords) = [] := by
  cases item <;> rfl

theorem ir_words (hw : Wide e.sema) :
    e.ir.flatMap (Line.words rawWords) = (origins rawWords e).map Origin.word := by
  have hDeclared : (e.items.flatMap (Item.declaration e.sema e.aux)).flatMap (Line.words rawWords) =
      e.items.flatMap fun item => (Item.declaredOrigins rawWords e item).map Origin.word := by
    rw [List.flatMap_assoc]
    simp only [declaration_words hw]
  have hColon : (e.items.flatMap (Item.colonWord e.sema)).flatMap (Line.words rawWords) =
      e.items.flatMap fun item => (Item.colonOrigins item).map Origin.word := by
    rw [List.flatMap_assoc]
    simp only [colon_words]
  have hExecution : (e.items.flatMap (Item.execution e.sema)).flatMap (Line.words rawWords) = [] := by
    rw [List.flatMap_assoc]
    exact List.flatMap_eq_nil_iff.mpr fun item _ => execution_words item
  have hIr : e.ir = [.using_ (vocabsNeeded e.sema), .inScratchpad] ++
      e.items.flatMap (Item.declaration e.sema e.aux) ++
      (emitMethods e.sema e.aux e.items e.helper).1 ++ e.items.flatMap (Item.colonWord e.sema) ++
      e.items.flatMap (Item.execution e.sema) ++ [.flush] := rfl
  have hFront : [Line.using_ (vocabsNeeded e.sema), .inScratchpad].flatMap (Line.words rawWords) =
      [] := rfl
  have hFlush : [Line.flush].flatMap (Line.words rawWords) = [] := rfl
  rw [hIr]
  simp only [List.flatMap_append, hFront, hDeclared, methods_words, hColon, hExecution, hFlush,
    origins, List.map_append, List.map_flatMap, List.append_nil, List.nil_append]

/-! Which names can be alike. -/

/-- The names that the mangling renames, with what it makes of them. -/
def renamedPairs : List (String × String) :=
  [("->", "arrow"), ("\x7dt", "end-test"), ("t\x7b", "begin-test")]

def safeName (n : String) : String :=
  match n with
  | "->" => "arrow"
  | "\x7dt" => "end-test"
  | "t\x7b" => "begin-test"
  | other => other

theorem factorUserName_safe (n : String) : factorUserName n = "z-" ++ safeName n := rfl

theorem safeName_cases (n : String) : safeName n = n ∨ (n, safeName n) ∈ renamedPairs := by
  unfold safeName
  split
  · exact .inr (by decide)
  · exact .inr (by decide)
  · exact .inr (by decide)
  · exact .inl rfl

theorem safeName_renamed {a b : String} (h : (a, b) ∈ renamedPairs) :
    safeName a = b ∧ safeName b = b ∧ a ≠ b := by
  simp only [renamedPairs, List.mem_cons, Prod.mk.injEq, List.not_mem_nil, or_false] at h
  rcases h with ⟨rfl, rfl⟩ | ⟨rfl, rfl⟩ | ⟨rfl, rfl⟩ <;> decide

theorem safeName_eq {a b : String} (h : safeName a = safeName b) :
    a = b ∨ (a, b) ∈ renamedPairs ∨ (b, a) ∈ renamedPairs := by
  rcases safeName_cases a with ha | ha
  · rcases safeName_cases b with hb | hb
    · exact .inl (ha.symm.trans (h.trans hb))
    · rw [← h, ha] at hb
      exact .inr (.inr hb)
  · rcases safeName_cases b with hb | hb
    · rw [h, hb] at ha
      exact .inr (.inl ha)
    · -- no two names are renamed alike
      rw [← h] at hb
      have hOne : ∀ p ∈ renamedPairs, ∀ q ∈ renamedPairs, p.2 = q.2 → p.1 = q.1 := by decide
      exact .inl (hOne _ ha _ hb rfl)

/-- The last character of a text. -/
def lastChar (s : String) : Option Char := s.toList.getLast?

theorem lastChar_append (s t : String) (h : (lastChar t).isSome) :
    lastChar (s ++ t) = lastChar t := by
  obtain ⟨c, hc⟩ := Option.isSome_iff_exists.mp h
  unfold lastChar at hc ⊢
  rw [String.toList_append, List.getLast?_append, hc]
  rfl

/-- No renamed name, and nothing a name is renamed to, ends in this character. -/
def Suffixal (c : Char) : Prop := ∀ p ∈ renamedPairs, lastChar p.1 ≠ some c ∧ lastChar p.2 ≠ some c

instance (c : Char) : Decidable (Suffixal c) := by
  unfold Suffixal
  infer_instance

theorem safeName_suffixal {n t : String} {c : Char} (hc : Suffixal c) (ht : lastChar t = some c) :
    safeName n = t ↔ n = t := by
  constructor
  · rintro rfl
    rcases safeName_cases n with hn | hn
    · exact hn.symm
    · exact absurd ht (hc _ hn).2
  · rintro rfl
    rcases safeName_cases n with hn | hn
    · exact hn
    · exact absurd ht (hc _ hn).1

/-! What stands behind a mangled name can be read off the end of the word. -/

theorem digits_last (i : Nat) : ∃ c, lastChar (toString i) = some c ∧ c.isDigit = true := by
  have hDigits : (toString i).toList = Nat.toDigits 10 i := Nat.toList_repr
  have hNe : Nat.toDigits 10 i ≠ [] := Nat.toDigits_ne_nil
  refine ⟨(Nat.toDigits 10 i).getLast hNe, ?_, ?_⟩
  · rw [lastChar, hDigits, List.getLast?_eq_getLast_of_ne_nil hNe]
  · exact Nat.isDigit_of_mem_toDigits (by decide) (by decide) (List.getLast_mem hNe)

theorem suffix_last {f : Family} {s : String} (h : f.suffix? = some s) :
    ∃ c, lastChar s = some c ∧ Suffixal c := by
  cases f with
  | predicate =>
    obtain rfl := Option.some.inj h
    exact ⟨'?', by decide, by decide⟩
  | shadow kind =>
    obtain rfl := Option.some.inj h
    cases kind
    · exact ⟨'y', by decide, by decide⟩
    · exact ⟨'e', by decide, by decide⟩
    · exact ⟨'r', by decide, by decide⟩
  | helper number =>
    obtain rfl := Option.some.inj h
    obtain ⟨c, hLast, hDigit⟩ := digits_last number
    refine ⟨c, ?_, ?_⟩
    · rw [lastChar_append _ _ (by rw [hLast]; rfl), hLast]
    · intro p hp
      have hEnds : ∀ p ∈ renamedPairs, ∀ t ∈ [p.1, p.2],
          (lastChar t).all (fun d => !d.isDigit) = true := by
        decide
      have hNot : ∀ t ∈ [p.1, p.2], lastChar t ≠ some c := by
        intro t ht hBad
        have hNoDigit := hEnds p hp t ht
        rw [hBad, Option.all_some, hDigit] at hNoDigit
        cases hNoDigit
      exact ⟨hNot p.1 (by simp), hNot p.2 (by simp)⟩
  | _ => cases h

/-- A number behind a stem that does not end in a digit is read off the end. -/
theorem numbered_inj {x y : String} {i j : Nat}
    (h : x ++ ("-mh" ++ toString i) = y ++ ("-mh" ++ toString j)) : i = j := by
  have hTail : ∀ (x : String) (i : Nat),
      (x ++ ("-mh" ++ toString i)).toList.reverse.takeWhile Char.isDigit =
        (Nat.toDigits 10 i).reverse := by
    intro x i
    have hDigits : (toString i).toList = Nat.toDigits 10 i := Nat.toList_repr
    have hAll : ∀ c ∈ (Nat.toDigits 10 i).reverse, c.isDigit = true := by
      intro c hc
      exact Nat.isDigit_of_mem_toDigits (by decide) (by decide) (List.mem_reverse.mp hc)
    have hStem : (x ++ "-mh").toList.reverse = 'h' :: 'm' :: '-' :: x.toList.reverse := by
      rw [String.toList_append, List.reverse_append]
      rfl
    rw [← String.append_assoc, String.toList_append, List.reverse_append, hDigits, hStem,
      List.takeWhile_append_of_pos hAll]
    simp
  have hSame := congrArg (fun s => s.toList.reverse.takeWhile Char.isDigit) h
  simp only [hTail] at hSame
  have hDigits := congrArg (fun ds => Nat.ofDigitChars 10 ds 0) (List.reverse_injective hSame)
  simpa using hDigits

/-- The suffix without a number that ends in a character. -/
def endsIn (c : Char) : Option Family :=
  match c with
  | '?' => some .predicate
  | 'y' => some (.shadow .primary)
  | 'e' => some (.shadow .before)
  | 'r' => some (.shadow .after)
  | _ => none

theorem digit_endsIn {c : Char} (h : c.isDigit = true) : endsIn c = none := by
  unfold endsIn
  split <;> first | rfl | cases h

theorem suffix_endsIn {f : Family} {s : String} {c : Char} (hs : f.suffix? = some s)
    (hc : lastChar s = some c) : endsIn c = some f ∨ (endsIn c = none ∧ ∃ i, f = .helper i) := by
  cases f with
  | predicate =>
    obtain rfl := Option.some.inj hs
    obtain rfl : '?' = c := Option.some.inj hc
    exact .inl rfl
  | shadow kind =>
    obtain rfl := Option.some.inj hs
    cases kind with
    | primary =>
      obtain rfl : 'y' = c := Option.some.inj hc
      exact .inl rfl
    | before =>
      obtain rfl : 'e' = c := Option.some.inj hc
      exact .inl rfl
    | after =>
      obtain rfl : 'r' = c := Option.some.inj hc
      exact .inl rfl
  | helper number =>
    obtain rfl := Option.some.inj hs
    obtain ⟨d, hLast, hDigit⟩ := digits_last number
    rw [lastChar_append _ _ (by rw [hLast]; rfl), hLast] at hc
    obtain rfl := Option.some.inj hc
    exact .inr ⟨digit_endsIn hDigit, number, rfl⟩
  | _ => cases hs

theorem suffix_eq {f f' : Family} {s s' x y : String} (hs : f.suffix? = some s)
    (hs' : f'.suffix? = some s') (h : x ++ s = y ++ s') : f = f' := by
  obtain ⟨c, hc, -⟩ := suffix_last hs
  obtain ⟨c', hc', -⟩ := suffix_last hs'
  have hLast : c = c' := by
    have hEq := congrArg lastChar h
    rw [lastChar_append _ _ (by rw [hc]; rfl), lastChar_append _ _ (by rw [hc']; rfl), hc, hc'] at hEq
    exact Option.some.inj hEq
  subst hLast
  rcases suffix_endsIn hs hc with hEnd | ⟨hEnd, i, rfl⟩
  · rcases suffix_endsIn hs' hc' with hEnd' | ⟨hEnd', -⟩
    · exact Option.some.inj (hEnd.symm.trans hEnd')
    · cases hEnd.symm.trans hEnd'
  · rcases suffix_endsIn hs' hc' with hEnd' | ⟨-, j, rfl⟩
    · cases hEnd.symm.trans hEnd'
    · obtain rfl := Option.some.inj hs
      obtain rfl := Option.some.inj hs'
      rw [numbered_inj h]

theorem stem_inj {k k' : StorageKind} {x y : String} (h : k.stem ++ x = k'.stem ++ y) :
    k = k' ∧ x = y := by
  have hChars := congrArg String.toList h
  rw [String.toList_append, String.toList_append] at hChars
  cases k <;> cases k' <;>
    first
    | exact ⟨rfl, (String.append_right_inj _).mp h⟩
    | simp [StorageKind.stem] at hChars

/-! The names of one family. -/

/-- What the words of one family are made from. -/
def bases (f : Family) (os : List Origin) : List String :=
  os.filterMap fun o => if o.family = f then some o.base else none

theorem mem_bases {f : Family} {os : List Origin} {n : String} : n ∈ bases f os ↔ ⟨f, n⟩ ∈ os := by
  unfold bases
  rw [List.mem_filterMap]
  constructor
  · rintro ⟨⟨g, m⟩, ho, hEq⟩
    by_cases hFamily : g = f
    · subst hFamily
      rw [if_pos rfl] at hEq
      obtain rfl : m = n := Option.some.inj hEq
      exact ho
    · rw [if_neg hFamily] at hEq
      cases hEq
  · intro h
    exact ⟨⟨f, n⟩, h, if_pos rfl⟩

theorem bases_append (f : Family) (os os' : List Origin) :
    bases f (os ++ os') = bases f os ++ bases f os' := List.filterMap_append

theorem bases_flatMap {α : Type} (f : Family) (g : α → List Origin) (xs : List α) :
    bases f (xs.flatMap g) = xs.flatMap fun x => bases f (g x) := by
  induction xs with
  | nil => rfl
  | cons x xs ih => rw [List.flatMap_cons, bases_append, ih, List.flatMap_cons]

theorem nodup_of_bases {os : List Origin} (h : ∀ f, (bases f os).Nodup) : os.Nodup := by
  induction os with
  | nil => exact List.nodup_nil
  | cons o os ih =>
    apply List.nodup_cons.mpr
    constructor
    · intro hIn
      have hOwn := h o.family
      have hCons : bases o.family (o :: os) = o.base :: bases o.family os := by simp [bases]
      rw [hCons] at hOwn
      exact (List.nodup_cons.mp hOwn).1 (mem_bases.mpr hIn)
    · apply ih
      intro f
      have hTail : (bases f os).Sublist (bases f (o :: os)) :=
        (List.sublist_cons_self o os).filterMap _
      exact (h f).sublist hTail

theorem bases_nodup {os : List Origin} (h : os.Nodup) (f : Family) : (bases f os).Nodup := by
  apply h.filterMap
  rintro ⟨g, m⟩ ⟨g', m'⟩ n hn hn'
  by_cases hg : g = f
  · by_cases hg' : g' = f
    · rw [if_pos hg] at hn
      rw [if_pos hg'] at hn'
      obtain rfl : m = n := Option.some.inj hn
      obtain rfl : m' = m := Option.some.inj hn'
      rw [hg, hg']
    · rw [if_neg hg'] at hn'
      cases hn'
  · rw [if_neg hg] at hn
    cases hn

/-! Registration keeps the names of a family apart. -/

def Family.isNamed : Family → Bool
  | .helper _ => false
  | .raw => false
  | _ => true

/-- What an item gives to one family. -/
def itemBases (rawWords : String → List String) (e : Eval) (f : Family) (item : Item) : List String :=
  bases f (Item.declaredOrigins rawWords e item) ++ bases f (Item.colonOrigins item)

theorem stored_bases (f : Family) (kind : StorageKind) (name : String) :
    ((bases f (stored kind name)).map lower).Sublist [lower name] := by
  by_cases hStorage : f = .storage kind
  · subst hStorage
    simp [bases, stored, image, lower_idem]
  · by_cases hImage : f = .image
    · subst hImage
      simp [bases, stored, image, lower_idem]
    · have hNil : bases f (stored kind name) = [] := by
        simp [bases, stored, image, Ne.symm hStorage, Ne.symm hImage]
      rw [hNil]
      exact List.nil_sublist _

theorem image_bases (f : Family) (name : String) :
    ((bases f [image (lower name)]).map lower).Sublist [lower name] := by
  by_cases hImage : f = .image
  · subst hImage
    simp [bases, image, lower_idem]
  · have hNil : bases f [image (lower name)] = [] := by simp [bases, image, Ne.symm hImage]
    rw [hNil]
    exact List.nil_sublist _

theorem generic_bases (f : Family) (name : String) (wrapped : Bool) :
    ((bases f (genericOrigins (lower name) wrapped)).map lower).Sublist [lower name] := by
  cases wrapped with
  | false => exact image_bases f name
  | true =>
    cases f with
    | shadow kind =>
      have hOne : bases (.shadow kind) (genericOrigins (lower name) true) = [lower name] := by
        cases kind <;> rfl
      rw [hOne, List.map_cons, lower_idem]
      exact List.Sublist.refl _
    | image => exact image_bases .image name
    | _ => exact List.nil_sublist _

theorem class_bases (f : Family) (c : ClassDef) (slots : List String) :
    ((bases f (classOrigins (lower c.name) slots)).map lower).Sublist
      ((classSynthesisedNames c slots).map fun p => lower p.1) := by
  have hSlots : ∀ slots : List String,
      (bases .image (slots.flatMap (slotOrigins (lower c.name)))) =
        slots.flatMap fun s => [lower c.name ++ ">" ++ s, s ++ ">>" ++ lower c.name,
          lower c.name ++ "." ++ s ++ "!"] := by
    intro slots
    rw [bases_flatMap]
    rfl
  have hOther : ∀ g : Family, g ≠ .image → ∀ slots : List String,
      bases g (slots.flatMap (slotOrigins (lower c.name))) = [] := by
    intro g hg slots
    rw [bases_flatMap]
    apply List.flatMap_eq_nil_iff.mpr
    intro s _
    simp [bases, slotOrigins, image, Ne.symm hg]
  by_cases hImage : f = .image
  · subst hImage
    have hImages : bases .image (classOrigins (lower c.name) slots) =
        lower c.name :: ("<" ++ lower c.name ++ ">") ::
          bases .image (slots.flatMap (slotOrigins (lower c.name))) := rfl
    have hNames : (classSynthesisedNames c slots).map (fun p => lower p.1) =
        lower (lower c.name) :: lower ("<" ++ lower c.name ++ ">") :: lower (lower c.name ++ "?") ::
          (slots.flatMap fun s => [lower c.name ++ ">" ++ s, s ++ ">>" ++ lower c.name,
            lower c.name ++ "." ++ s ++ "!"]).map lower := by
      simp [classSynthesisedNames, List.map_flatMap]
    rw [hImages, hNames, hSlots, List.map_cons, List.map_cons]
    exact (((List.Sublist.refl _).cons _).cons_cons _).cons_cons _
  · have hSplit : bases f (classOrigins (lower c.name) slots) =
        bases f [image (lower c.name), ⟨.predicate, lower c.name⟩,
          image ("<" ++ lower c.name ++ ">")] ++
          bases f (slots.flatMap (slotOrigins (lower c.name))) := bases_append f [_, _, _] _
    rw [hSplit, hOther f hImage, List.append_nil]
    by_cases hPredicate : f = .predicate
    · subst hPredicate
      exact List.Sublist.cons_cons _ (List.nil_sublist _)
    · have hNil : bases f [image (lower c.name), ⟨.predicate, lower c.name⟩,
          image ("<" ++ lower c.name ++ ">")] = [] := by
        simp [bases, image, Ne.symm hImage, Ne.symm hPredicate]
      rw [hNil]
      exact List.nil_sublist _

theorem item_bases {f : Family} (hf : f.isNamed = true) (item : Item) :
    ((itemBases rawWords e f item).map lower).Sublist
      ((item.introduced e.sema.classSlots).map fun p => lower p.1) := by
  unfold itemBases
  match item with
  | .definition d => exact image_bases f d.name
  | .variable v =>
    show ((bases f (stored .variable v.name) ++ []).map lower).Sublist _
    rw [List.append_nil]
    exact stored_bases f .variable v.name
  | .constant c =>
    show ((bases f [image (lower c.name)] ++ []).map lower).Sublist _
    rw [List.append_nil]
    exact image_bases f c.name
  | .create c =>
    show ((bases f (stored .create c.name) ++ []).map lower).Sublist _
    rw [List.append_nil]
    exact stored_bases f .create c.name
  | .collection c =>
    show ((bases f (stored .collection c.name) ++ []).map lower).Sublist _
    rw [List.append_nil]
    exact stored_bases f .collection c.name
  | .templateInstance t =>
    show ((bases f (stored .template t.name) ++ []).map lower).Sublist _
    rw [List.append_nil]
    exact stored_bases f .template t.name
  | .value v =>
    show ((bases f (stored .value v.name) ++ []).map lower).Sublist _
    rw [List.append_nil]
    exact stored_bases f .value v.name
  | .class_ c =>
    show ((bases f (classOrigins (lower c.name) (slotsOf e.sema.classSlots c)) ++ []).map lower).Sublist _
    rw [List.append_nil]
    exact class_bases f c _
  | .generic g =>
    show ((bases f (genericOrigins (lower g.name) _) ++ []).map lower).Sublist _
    rw [List.append_nil]
    exact generic_bases f g.name _
  | .rawFactor raw =>
    have hNil : bases f ((rawWords raw.source).map fun s => ⟨.raw, s⟩) = [] := by
      have hNe : Family.raw ≠ f := by
        rintro rfl
        cases hf
      simp [bases, hNe]
    show ((bases f ((rawWords raw.source).map fun s => ⟨.raw, s⟩) ++ []).map lower).Sublist _
    rw [hNil]
    exact List.nil_sublist _
  | .template _ | .method _ | .topLevel _ _ | .needs _ _ => exact List.nil_sublist _

theorem flatMap_sublist {α β : Type} {g h : α → List β} (xs : List α)
    (hEach : ∀ x ∈ xs, (g x).Sublist (h x)) : (xs.flatMap g).Sublist (xs.flatMap h) := by
  induction xs with
  | nil => exact List.Sublist.refl _
  | cons x xs ih =>
    rw [List.flatMap_cons, List.flatMap_cons]
    exact (hEach x List.mem_cons_self).append (ih fun y hy => hEach y (List.mem_cons_of_mem _ hy))

theorem helper_bases_named {f : Family} (hf : ∀ i, f ≠ .helper i) (items : List Item) (helper : Nat) :
    bases f (helperOrigins items helper) = [] := by
  induction items generalizing helper with
  | nil => rfl
  | cons item items ih =>
    cases item with
    | method m =>
      rw [helperOrigins]
      split
      · have hHead : bases f (⟨.helper (helper + 1), lower m.genericName⟩ ::
            helperOrigins items (helper + 1)) = bases f (helperOrigins items (helper + 1)) := by
          simp [bases, Ne.symm (hf (helper + 1))]
        rw [hHead]
        exact ih _
      · exact ih _
    | _ => exact ih _

theorem helper_bases_old {i : Nat} (items : List Item) {helper : Nat} (h : i ≤ helper) :
    bases (.helper i) (helperOrigins items helper) = [] := by
  induction items generalizing helper with
  | nil => rfl
  | cons item items ih =>
    cases item with
    | method m =>
      rw [helperOrigins]
      split
      · have hNe : helper + 1 ≠ i := by
          rintro rfl
          exact Nat.not_succ_le_self _ h
        have hHead : bases (.helper i) (⟨.helper (helper + 1), lower m.genericName⟩ ::
            helperOrigins items (helper + 1)) =
            bases (.helper i) (helperOrigins items (helper + 1)) := by
          simp [bases, hNe]
        rw [hHead]
        exact ih (Nat.le_succ_of_le h)
      · exact ih h
    | _ => exact ih h

/-- A number is given to one helper at most. -/
theorem helper_bases_length (i : Nat) (items : List Item) (helper : Nat) :
    (bases (.helper i) (helperOrigins items helper)).length ≤ 1 := by
  induction items generalizing helper with
  | nil => exact Nat.zero_le _
  | cons item items ih =>
    cases item with
    | method m =>
      rw [helperOrigins]
      split
      · by_cases hNumber : i = helper + 1
        · have hHead : bases (.helper i) (⟨.helper (helper + 1), lower m.genericName⟩ ::
              helperOrigins items (helper + 1)) =
              lower m.genericName :: bases (.helper i) (helperOrigins items (helper + 1)) := by
            simp [bases, hNumber]
          rw [hHead, helper_bases_old items (Nat.le_of_eq hNumber)]
          exact Nat.le_refl _
        · have hHead : bases (.helper i) (⟨.helper (helper + 1), lower m.genericName⟩ ::
              helperOrigins items (helper + 1)) =
              bases (.helper i) (helperOrigins items (helper + 1)) := by
            simp [bases, Ne.symm hNumber]
          rw [hHead]
          exact ih _
      · exact ih _
    | _ => exact ih _

/-- The words of a compile in another order, each item with its own. -/
theorem origins_perm : List.Perm (origins rawWords e)
    (e.items.flatMap (fun item => Item.declaredOrigins rawWords e item ++ Item.colonOrigins item) ++
      helperOrigins e.items e.helper) := by
  unfold origins
  rw [List.append_assoc]
  refine (List.perm_append_comm.append_left _).trans ?_
  rw [← List.append_assoc]
  exact (List.flatMap_append_perm _ _ _).append_right _

theorem bases_origins (f : Family) : List.Perm (bases f (origins rawWords e))
    (e.items.flatMap (itemBases rawWords e f) ++ bases f (helperOrigins e.items e.helper)) := by
  have hPerm : List.Perm (bases f (origins rawWords e)) (bases f _) := origins_perm.filterMap _
  rw [bases_append, bases_flatMap] at hPerm
  refine hPerm.trans (List.Perm.of_eq ?_)
  simp only [bases_append]
  rfl

theorem helper_bases_items (i : Nat) (item : Item) : itemBases rawWords e (.helper i) item = [] := by
  unfold itemBases
  apply List.append_eq_nil_iff.mpr
  constructor
  · apply List.eq_nil_iff_forall_not_mem.mpr
    intro n hn
    have hIn := mem_bases.mp hn
    cases item with
    | rawFactor raw => simp [Item.declaredOrigins] at hIn
    | class_ c => simp [Item.declaredOrigins, classOrigins, slotOrigins, image] at hIn
    | generic g =>
      simp only [Item.declaredOrigins, genericOrigins] at hIn
      split at hIn <;> simp [image] at hIn
    | _ => simp [Item.declaredOrigins, stored, image] at hIn
  · cases item <;> rfl

/-- Registration keeps all families but the raw words free of repetitions. -/
theorem family_nodup (hNames : (registered e.sema.classSlots e.items).Nodup) {f : Family}
    (hf : f ≠ .raw) : (bases f (origins rawWords e)).Nodup := by
  apply (bases_origins f).nodup_iff.mpr
  by_cases hHelper : ∃ i, f = .helper i
  · obtain ⟨i, rfl⟩ := hHelper
    have hItems : e.items.flatMap (itemBases rawWords e (.helper i)) = [] :=
      List.flatMap_eq_nil_iff.mpr fun item _ => helper_bases_items i item
    rw [hItems, List.nil_append]
    have hLength := helper_bases_length i e.items e.helper
    match bases (.helper i) (helperOrigins e.items e.helper), hLength with
    | [], _ => exact List.nodup_nil
    | [n], _ => exact List.nodup_singleton n
  · have hNamed : f.isNamed = true := by
      cases f with
      | helper i => exact absurd ⟨i, rfl⟩ hHelper
      | raw => exact absurd rfl hf
      | _ => rfl
    rw [helper_bases_named (fun i hi => hHelper ⟨i, hi⟩), List.append_nil]
    apply List.Nodup.of_map lower
    rw [List.map_flatMap]
    have hEach : ∀ item ∈ e.items, ((itemBases rawWords e f item).map lower).Sublist
        ((item.introduced e.sema.classSlots).map fun p => lower p.1) :=
      fun item _ => item_bases hNamed item
    refine List.Nodup.sublist (flatMap_sublist e.items hEach) ?_
    rw [registered, List.map_flatMap] at hNames
    exact hNames

/-! Words that are alike. -/

theorem word_suffix {o : Origin} {s : String} (h : o.family.suffix? = some s) :
    o.word = "z-" ++ (safeName o.base ++ s) := by
  obtain ⟨f, n⟩ := o
  cases f with
  | predicate =>
    obtain rfl := Option.some.inj h
    exact String.append_assoc
  | shadow kind =>
    obtain rfl := Option.some.inj h
    exact String.append_assoc
  | helper number =>
    obtain rfl := Option.some.inj h
    show "z-" ++ safeName n ++ "-mh" ++ toString number = _
    rw [String.append_assoc, String.append_assoc]
  | _ => cases h

theorem image_word (n : String) : (image n).word = "z-" ++ safeName n := rfl

/-- The image of a name is the word behind another one exactly when the name is spelt so. -/
theorem image_suffix {o : Origin} {s n : String} (h : o.family.suffix? = some s) :
    (image n).word = o.word ↔ n = safeName o.base ++ s := by
  obtain ⟨c, hLast, hSuffixal⟩ := suffix_last h
  have hEnd : lastChar (safeName o.base ++ s) = some c := by
    rw [lastChar_append _ _ (by rw [hLast]; rfl), hLast]
  rw [word_suffix h, image_word, String.append_right_inj]
  exact safeName_suffixal hSuffixal hEnd

theorem storage_apart {x y : String} (k : StorageKind) : "z-" ++ x ≠ k.stem ++ y := by
  intro h
  have hChars := congrArg String.toList h
  rw [String.toList_append, String.toList_append] at hChars
  cases k <;> simp [StorageKind.stem] at hChars

theorem family_cases (f : Family) :
    f = .image ∨ (∃ s, f.suffix? = some s) ∨ (∃ k, f = .storage k) ∨ f = .raw := by
  cases f with
  | image => exact .inl rfl
  | storage kind => exact .inr (.inr (.inl ⟨kind, rfl⟩))
  | raw => exact .inr (.inr (.inr rfl))
  | _ => exact .inr (.inl ⟨_, rfl⟩)

/-- What the names of a compile must keep to: no renamed name beside the one it is renamed to, no name
that is spelt like a word behind another, and no word of raw Factor twice or beside another word. -/
structure WordsApart (os : List Origin) : Prop where
  renamed : ∀ p ∈ renamedPairs, ¬ (image p.1 ∈ os ∧ image p.2 ∈ os)
  behind : ∀ o ∈ os, ∀ s, o.family.suffix? = some s → image (safeName o.base ++ s) ∉ os
  raw : (bases .raw os).Nodup
  rawApart : ∀ o ∈ os, o.family ≠ .raw → ⟨.raw, o.word⟩ ∉ os

/-- Shadows and predicates stand beside the word they are named after. -/
def BasesPresent (os : List Origin) : Prop :=
  ∀ o ∈ os, (o.family = .predicate ∨ ∃ kind, o.family = .shadow kind) → image o.base ∈ os

theorem image_alike {os : List Origin} (hApart : WordsApart os) {a b : String} (ha : image a ∈ os)
    (hb : image b ∈ os) (h : safeName a = safeName b) : a = b := by
  rcases safeName_eq h with hSame | hPair | hPair
  · exact hSame
  · exact absurd ⟨ha, hb⟩ (hApart.renamed _ hPair)
  · exact absurd ⟨hb, ha⟩ (hApart.renamed _ hPair)

/-- Two words behind mangled names. -/
theorem suffix_alike {os : List Origin} (hApart : WordsApart os) (hBases : BasesPresent os)
    (hHelpers : ∀ i n n', (⟨.helper i, n⟩ : Origin) ∈ os → ⟨.helper i, n'⟩ ∈ os → n = n')
    {o o' : Origin} (ho : o ∈ os) (ho' : o' ∈ os) {s s' : String} (hs : o.family.suffix? = some s)
    (hs' : o'.family.suffix? = some s') (h : o.word = o'.word) : o = o' := by
  rw [word_suffix hs, word_suffix hs', String.append_right_inj] at h
  have hFamily := suffix_eq hs hs' h
  obtain ⟨f, n⟩ := o
  obtain ⟨f', n'⟩ := o'
  obtain rfl : f = f' := hFamily
  obtain rfl := Option.some.inj (hs.symm.trans hs')
  have hSafe : safeName n = safeName n' := (String.append_left_inj s).mp h
  have hBase : n = n' := by
    cases f with
    | predicate =>
      exact image_alike hApart (hBases _ ho (.inl rfl)) (hBases _ ho' (.inl rfl)) hSafe
    | shadow kind =>
      exact image_alike hApart (hBases _ ho (.inr ⟨kind, rfl⟩)) (hBases _ ho' (.inr ⟨kind, rfl⟩)) hSafe
    | helper i => exact hHelpers i n n' ho ho'
    | _ => cases hs
  rw [hBase]

/-- A word that is no raw one, beside a word of a family that comes later. -/
theorem word_inj {os : List Origin} (hApart : WordsApart os) (hBases : BasesPresent os)
    (hHelpers : ∀ i n n', (⟨.helper i, n⟩ : Origin) ∈ os → ⟨.helper i, n'⟩ ∈ os → n = n')
    {o o' : Origin} (ho : o ∈ os) (ho' : o' ∈ os) (h : o.word = o'.word) : o = o' := by
  have hRaw : ∀ p ∈ os, ∀ n, (⟨.raw, n⟩ : Origin) ∈ os → p.word = n → p = ⟨.raw, n⟩ := by
    intro p hp n hn hWord
    by_cases hFamily : p.family = .raw
    · obtain ⟨f, m⟩ := p
      obtain rfl : f = .raw := hFamily
      obtain rfl : m = n := hWord
      rfl
    · rw [← hWord] at hn
      exact absurd hn (hApart.rawApart p hp hFamily)
  have hBehind : ∀ p ∈ os, ∀ s, p.family.suffix? = some s → ∀ n, image n ∈ os →
      (image n).word ≠ p.word := by
    intro p hp s hs n hn hWord
    rw [(image_suffix hs).mp hWord] at hn
    exact hApart.behind p hp s hs hn
  obtain ⟨f, n⟩ := o
  obtain ⟨f', n'⟩ := o'
  rcases family_cases f with rfl | ⟨s, hs⟩ | ⟨k, rfl⟩ | rfl
  · rcases family_cases f' with rfl | ⟨s', hs'⟩ | ⟨k', rfl⟩ | rfl
    · have hSafe : safeName n = safeName n' := (String.append_right_inj "z-").mp h
      rw [image_alike hApart ho ho' hSafe]
    · exact absurd h (hBehind _ ho' s' hs' n ho)
    · exact absurd h (storage_apart k')
    · exact hRaw _ ho n' ho' h
  · rcases family_cases f' with rfl | ⟨s', hs'⟩ | ⟨k', rfl⟩ | rfl
    · exact absurd h.symm (hBehind _ ho s hs n' ho')
    · exact suffix_alike hApart hBases hHelpers ho ho' hs hs' h
    · rw [word_suffix (o := ⟨f, n⟩) hs] at h
      exact absurd h (storage_apart k')
    · exact hRaw _ ho n' ho' h
  · rcases family_cases f' with rfl | ⟨s', hs'⟩ | ⟨k', rfl⟩ | rfl
    · exact absurd h.symm (storage_apart k)
    · rw [word_suffix (o := ⟨f', n'⟩) hs'] at h
      exact absurd h.symm (storage_apart k)
    · obtain ⟨rfl, rfl⟩ := stem_inj h
      rfl
    · exact hRaw _ ho n' ho' h
  · exact (hRaw _ ho' n ho h.symm).symm

/-- Where the families are free of repetitions, the words are pairwise distinct exactly when the names
are apart. -/
theorem words_nodup_iff {os : List Origin} (hFamilies : ∀ f, f ≠ .raw → (bases f os).Nodup)
    (hNumbers : ∀ i, (bases (.helper i) os).length ≤ 1) (hBases : BasesPresent os) : (os.map Origin.word).Nodup ↔ WordsApart os := by
  constructor
  · intro h
    have hInj := List.inj_on_of_nodup_map h
    refine ⟨fun p hp hBoth => ?_, fun o ho s hs hIn => ?_, bases_nodup h.of_map .raw, ?_⟩
    · obtain ⟨hFirst, hSecond, hNe⟩ := safeName_renamed hp
      have hWord : (image p.1).word = (image p.2).word := by
        rw [image_word, image_word, hFirst, hSecond]
      have hSame := hInj hBoth.1 hBoth.2 hWord
      exact hNe (congrArg Origin.base hSame)
    · have hSame := hInj hIn ho ((image_suffix hs).mpr rfl)
      rw [← hSame] at hs
      cases hs
    · intro o ho hFamily hIn
      have hSame := hInj ho hIn rfl
      rw [hSame] at hFamily
      exact hFamily rfl
  · intro hApart
    have hNodup : os.Nodup := by
      apply nodup_of_bases
      intro f
      by_cases hRaw : f = .raw
      · rw [hRaw]
        exact hApart.raw
      · exact hFamilies f hRaw
    have hHelpers : ∀ i n n', (⟨.helper i, n⟩ : Origin) ∈ os → ⟨.helper i, n'⟩ ∈ os → n = n' := by
      intro i n n' hn hn'
      have hIn := mem_bases.mpr hn
      have hIn' := mem_bases.mpr hn'
      match hOne : bases (.helper i) os, hNumbers i with
      | [], _ =>
        rw [hOne] at hIn
        cases hIn
      | [m], _ =>
        rw [hOne] at hIn hIn'
        exact (List.mem_singleton.mp hIn).trans (List.mem_singleton.mp hIn').symm
    apply List.Nodup.map_on _ hNodup
    intro o ho o' ho' hWord
    exact word_inj hApart hBases hHelpers ho ho' hWord

/-! The compile. -/

theorem helper_origin_family {o : Origin} {items : List Item} {helper : Nat}
    (ho : o ∈ helperOrigins items helper) : ∃ i, o.family = .helper i := by
  induction items generalizing helper with
  | nil => cases ho
  | cons item items ih =>
    cases item with
    | method m =>
      rw [helperOrigins] at ho
      split at ho
      · rcases List.mem_cons.mp ho with rfl | hTail
        · exact ⟨_, rfl⟩
        · exact ih hTail
      · exact ih ho
    | _ => exact ih ho

/-- A class or a generic brings the word its predicate or its shadows are named after. -/
theorem declared_bases (item : Item) : BasesPresent (Item.declaredOrigins rawWords e item) := by
  intro o ho hNamed
  cases item with
  | class_ c =>
    rcases List.mem_cons.mp ho with rfl | ho
    · exact List.mem_cons_self
    · rcases List.mem_cons.mp ho with rfl | ho
      · exact List.mem_cons_self
      · have hImage : o.family = .image := by
          rcases List.mem_cons.mp ho with rfl | ho
          · rfl
          · obtain ⟨s, -, hs⟩ := List.mem_flatMap.mp ho
            simp only [slotOrigins, List.mem_cons, List.not_mem_nil, or_false] at hs
            rcases hs with rfl | rfl | rfl <;> rfl
        rw [hImage] at hNamed
        rcases hNamed with hBad | ⟨kind, hBad⟩ <;> cases hBad
  | generic g =>
    simp only [Item.declaredOrigins, genericOrigins] at ho ⊢
    split at ho
    · rw [if_pos ‹_›]
      have hBase : o.base = lower g.name := by
        simp only [List.mem_cons, List.not_mem_nil, or_false] at ho
        rcases ho with rfl | rfl | rfl | rfl <;> rfl
      rw [hBase]
      exact List.mem_cons_of_mem _ (List.mem_cons_of_mem _ (List.mem_cons_of_mem _ List.mem_cons_self))
    · obtain rfl := List.mem_singleton.mp ho
      rcases hNamed with hBad | ⟨kind, hBad⟩ <;> cases hBad
  | rawFactor raw =>
    obtain ⟨s, -, rfl⟩ := List.mem_map.mp ho
    rcases hNamed with hBad | ⟨kind, hBad⟩ <;> cases hBad
  | constant c =>
    obtain rfl := List.mem_singleton.mp ho
    rcases hNamed with hBad | ⟨kind, hBad⟩ <;> cases hBad
  | definition _ | topLevel _ _ | template _ | method _ | needs _ _ => cases ho
  | _ =>
    have hFamily : ∀ kind name, o ∈ stored kind name → o.family = .storage kind ∨ o.family = .image := by
      intro kind name ho
      simp only [stored, List.mem_cons, List.not_mem_nil, or_false] at ho
      rcases ho with rfl | rfl
      · exact .inl rfl
      · exact .inr rfl
    rcases hFamily _ _ ho with hOther | hOther <;>
    · rw [hOther] at hNamed
      rcases hNamed with hBad | ⟨kind, hBad⟩ <;> cases hBad

theorem origins_bases : BasesPresent (origins rawWords e) := by
  intro o ho hNamed
  rcases List.mem_append.mp ho with ho | ho
  · rcases List.mem_append.mp ho with ho | ho
    · obtain ⟨item, hItem, ho⟩ := List.mem_flatMap.mp ho
      have hBase := declared_bases item o ho hNamed
      exact List.mem_append_left _ (List.mem_append_left _ (List.mem_flatMap.mpr ⟨item, hItem, hBase⟩))
    · obtain ⟨i, hHelper⟩ := helper_origin_family ho
      rw [hHelper] at hNamed
      rcases hNamed with hBad | ⟨kind, hBad⟩ <;> cases hBad
  · obtain ⟨item, -, ho⟩ := List.mem_flatMap.mp ho
    cases item with
    | definition d =>
      obtain rfl := List.mem_singleton.mp ho
      rcases hNamed with hBad | ⟨kind, hBad⟩ <;> cases hBad
    | _ => cases ho

theorem helper_numbers (i : Nat) : (bases (.helper i) (origins rawWords e)).length ≤ 1 := by
  have hItems : e.items.flatMap (itemBases rawWords e (.helper i)) = [] :=
    List.flatMap_eq_nil_iff.mpr fun item _ => helper_bases_items i item
  rw [(bases_origins (.helper i)).length_eq, hItems, List.nil_append]
  exact helper_bases_length i e.items e.helper

end

/-- The words that an accepted compile defines have names of their own exactly when no renamed name
stands beside the one it is renamed to, no name is spelt like a predicate, shadow or helper of another,
and raw Factor defines no word twice or beside them. -/
theorem compile_wordsApart (host : Host) (fs : FileSystem) (rawWords : String → List String)
    (source : String) (ctx : CompileContext) (counters : Counters) {e : Eval}
    (h : compileEval host fs source ctx counters = some e) :
    (e.ir.flatMap (Line.words rawWords)).Nodup ↔ WordsApart (origins rawWords e) := by
  unfold compileEval at h
  split at h
  · cases h
  · rename_i sema hSema
    obtain rfl := Option.some.inj h
    have hNames := names_nodup hSema
    rw [ir_words (analyse_wide host fs hSema)]
    exact words_nodup_iff (fun f hf => family_nodup hNames hf) helper_numbers origins_bases

theorem compile_wordsApart_oneWord : ∃ e,
    compileEval noLet noFiles ": f dup ;" .new .start = some e ∧
      ((e.ir.flatMap (Line.words fun _ => [])).Nodup ↔ WordsApart (origins (fun _ => []) e)) := by
  have hSome : (compileEval noLet noFiles ": f dup ;" .new .start).isSome = true := by decide +kernel
  obtain ⟨e, he⟩ := Option.isSome_iff_exists.mp hSome
  exact ⟨e, he, compile_wordsApart noLet noFiles _ ": f dup ;" .new .start he⟩

/-- `->` and `arrow` are both defined as `z-arrow`. -/
theorem compile_not_wordsApart :
    ¬ ∀ (source : String) (e : Eval), compileEval noLet noFiles source .new .start = some e →
      (e.ir.flatMap (Line.words fun _ => [])).Nodup := by
  intro hAll
  have hAlike : (compileEval noLet noFiles ": -> ; : arrow ;" .new .start).map
      (fun e => decide (e.ir.flatMap (Line.words fun _ => []) = ["z-arrow", "z-arrow"])) =
        some true := by
    decide +kernel
  obtain ⟨e, he, hWords⟩ := Option.map_eq_some_iff.mp hAlike
  have hNodup := hAll _ e he
  rw [of_decide_eq_true hWords] at hNodup
  exact absurd hNodup (by decide)

end FactorForth.Correctness
