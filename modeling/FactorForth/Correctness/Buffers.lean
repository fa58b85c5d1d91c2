import FactorForth.Correctness.TemplateUses

/-! Data buffers. The size that the source asks for goes through a 32-bit count, a product and a sum, and
comes out whole exactly when it fits in 32 bits. -/

namespace FactorForth.Correctness
open FactorForth.Library FactorForth.Compiler

/-! What is asked for. -/

inductive AllotUnit where
  | bytes
  | cells
  | chars
  | floats
deriving DecidableEq, Repr

def AllotUnit.size : AllotUnit → Nat
  | .bytes => 1
  | .cells => 8
  | .chars => 1
  | .floats => 8

def unitWord (w : String) : Option AllotUnit :=
  match lower w with
  | "cells" => some .cells
  | "chars" => some .chars
  | "floats" => some .floats
  | _ => none

theorem AllotUnit.size_pos (u : AllotUnit) : 0 < u.size := by cases u <;> decide

/-- A run `n [CELLS | CHARS | FLOATS] ALLOT` at the front of some tokens, and the tokens behind it. -/
def leadRun : List Lex.Tok → Option ((Int × AllotUnit) × List Lex.Tok)
  | .int v _ _ :: .word a :: rest =>
    if v < 0 then none
    else if lower a = "allot" then some ((v, .bytes), rest)
    else match unitWord a, rest with
      | some u, .word b :: rest => if lower b = "allot" then some ((v, u), rest) else none
      | _, _ => none
  | _ => none

theorem leadRun_shorter {ts rest : List Lex.Tok} {run : Int × AllotUnit}
    (h : leadRun ts = some (run, rest)) : rest.length < ts.length := by
  unfold leadRun at h
  split at h
  · split at h
    · cases h
    · split at h
      · obtain ⟨-, rfl⟩ := Prod.mk.inj (Option.some.inj h)
        simp only [List.length_cons]
        omega
      · split at h
        · split at h
          · obtain ⟨-, rfl⟩ := Prod.mk.inj (Option.some.inj h)
            simp only [List.length_cons]
            omega
          · cases h
        · cases h
  · cases h

/-- The chain of runs at the front of some tokens. -/
def chain (ts : List Lex.Tok) : List (Int × AllotUnit) :=
  match _h : leadRun ts with
  | none => []
  | some (run, rest) => run :: chain rest
termination_by ts.length
decreasing_by exact leadRun_shorter (by assumption)

def askedBytes (runs : List (Int × AllotUnit)) : Nat := (runs.map fun p => p.1.toNat * p.2.size).sum

/-- The runs that CREATE takes in: those in front of the first one in FLOATS. -/
def takenRuns (runs : List (Int × AllotUnit)) : List (Int × AllotUnit) :=
  runs.takeWhile fun p => p.2 ≠ .floats

/-! Saturating sums. -/

def addRun (n : Nat) (run : Int × AllotUnit) : Nat :=
  saturatingAdd n (saturatingMul (asU32 run.1) run.2.size)

theorem asU32_exact {v : Int} (h : v.toNat ≤ u32Max) : asU32 v = v.toNat := by
  apply Nat.mod_eq_of_lt
  have hMax : u32Max = 2 ^ 32 - 1 := rfl
  omega

theorem saturatingMul_le (a b : Nat) : saturatingMul a b ≤ u32Max := Nat.min_le_right _ _

theorem saturatingMul_exact {v : Int} {size : Nat} (hSize : 0 < size)
    (h : v.toNat * size ≤ u32Max) : saturatingMul (asU32 v) size = v.toNat * size := by
  have hCount : v.toNat ≤ u32Max := (Nat.le_mul_of_pos_right _ hSize).trans h
  rw [asU32_exact hCount]
  exact Nat.min_eq_left h

theorem addRuns_le {n : Nat} (hn : n ≤ u32Max) (runs : List (Int × AllotUnit)) :
    runs.foldl addRun n ≤ u32Max := by
  induction runs generalizing n with
  | nil => exact hn
  | cons run runs ih => exact ih (Nat.min_le_right _ _)

/-- A sum that fits is exact. -/
theorem addRuns_exact (runs : List (Int × AllotUnit)) {n : Nat} (h : n + askedBytes runs ≤ u32Max) :
    runs.foldl addRun n = n + askedBytes runs := by
  induction runs generalizing n with
  | nil => rfl
  | cons run runs ih =>
    have hAsked : askedBytes (run :: runs) = run.1.toNat * run.2.size + askedBytes runs := by
      simp [askedBytes]
    rw [hAsked] at h ⊢
    have hStep : addRun n run = n + run.1.toNat * run.2.size := by
      unfold addRun
      rw [saturatingMul_exact run.2.size_pos (by omega)]
      exact Nat.min_eq_left (by omega)
    rw [List.foldl_cons, hStep, ih (by omega)]
    omega

theorem askedBytes_append (xs ys : List (Int × AllotUnit)) :
    askedBytes (xs ++ ys) = askedBytes xs + askedBytes ys := by
  simp [askedBytes]

theorem takenRuns_le (runs : List (Int × AllotUnit)) :
    askedBytes (takenRuns runs) ≤ askedBytes runs := by
  unfold takenRuns
  conv_rhs => rw [← List.takeWhile_append_dropWhile (p := fun p => decide (p.2 ≠ .floats)) (l := runs)]
  rw [askedBytes_append]
  exact Nat.le_add_right _ _

/-- A request that is met as far as its sum fits, at least one byte being given out. -/
theorem product_enough_iff {v : Int} {size : Nat} (hSize : 0 < size) :
    max (v.toNat * size) 1 ≤ max (saturatingMul (asU32 v) size) 1 ↔ v.toNat * size ≤ u32Max := by
  constructor
  · intro h
    have hMul := saturatingMul_le (asU32 v) size
    have hOne : 1 ≤ u32Max := by decide
    exact (Nat.le_max_left _ _).trans (h.trans (max_le hMul hOne))
  · intro h
    rw [saturatingMul_exact hSize h]

theorem chain_enough_iff (runs : List (Int × AllotUnit)) :
    max (askedBytes runs) 1 ≤ max ((takenRuns runs).foldl addRun 0) 1 ↔
      askedBytes runs ≤ u32Max ∧ askedBytes runs ≤ max (askedBytes (takenRuns runs)) 1 := by
  have hTaken := takenRuns_le runs
  have hExact : askedBytes runs ≤ u32Max →
      (takenRuns runs).foldl addRun 0 = askedBytes (takenRuns runs) := by
    intro hFits
    rw [addRuns_exact _ (by omega), Nat.zero_add]
  constructor
  · intro h
    have hSum := addRuns_le (Nat.zero_le u32Max) (takenRuns runs)
    have hOne : 1 ≤ u32Max := by decide
    have hFits : askedBytes runs ≤ u32Max :=
      (Nat.le_max_left _ _).trans (h.trans (max_le hSum hOne))
    rw [hExact hFits] at h
    exact ⟨hFits, (Nat.le_max_left _ _).trans h⟩
  · rintro ⟨hFits, hMet⟩
    rw [hExact hFits]
    exact max_le hMet (Nat.le_max_right _ _)

/-! The text of a CREATE is the part of its chain that is taken in. -/

theorem unit_run {unit : Nat} {us : List Lex.Tok} (hUnit : UnitText unit us) :
    ∃ u, u ≠ .floats ∧ AllotUnit.size u = unit ∧ ∀ (v : Int) (base : Lex.NumBase) (raw a : String)
      (rest : List Lex.Tok), 0 ≤ v → lower a = "allot" →
        leadRun (.int v base raw :: us ++ .word a :: rest) = some ((v, u), rest) := by
  cases hUnit with
  | @cells w hw =>
    refine ⟨.cells, by decide, rfl, fun v base raw a rest hv ha => ?_⟩
    simp [leadRun, Int.not_lt.mpr hv, hw, unitWord, ha]
  | @chars w hw =>
    refine ⟨.chars, by decide, rfl, fun v base raw a rest hv ha => ?_⟩
    simp [leadRun, Int.not_lt.mpr hv, hw, unitWord, ha]
  | bytes =>
    refine ⟨.bytes, by decide, rfl, fun v base raw a rest hv ha => ?_⟩
    simp [leadRun, Int.not_lt.mpr hv, ha]

theorem chain_none {ts : List Lex.Tok} (h : leadRun ts = none) : chain ts = [] := by
  rw [chain]
  split
  · rfl
  · rename_i run rest hRun
    rw [h] at hRun
    cases hRun

theorem chain_some {ts rest : List Lex.Tok} {run : Int × AllotUnit}
    (h : leadRun ts = some (run, rest)) : chain ts = run :: chain rest := by
  conv_lhs => rw [chain]
  split
  · rename_i hRun
    rw [h] at hRun
    cases hRun
  · rename_i run' rest' hRun
    rw [h] at hRun
    obtain ⟨rfl, rfl⟩ := Prod.mk.inj (Option.some.inj hRun)
    rfl

theorem takenRuns_cons {run : Int × AllotUnit} (h : run.2 ≠ .floats) (runs : List (Int × AllotUnit)) :
    takenRuns (run :: runs) = run :: takenRuns runs := by
  unfold takenRuns
  rw [List.takeWhile_cons, if_pos (by simpa using h)]

theorem unitWord_text {w : String} {u : AllotUnit} (h : unitWord w = some u) (hFloats : u ≠ .floats) :
    ∃ size, UnitText size [.word w] := by
  unfold unitWord at h
  split at h
  · rename_i hw
    exact ⟨8, .cells hw⟩
  · rename_i hw
    exact ⟨1, .chars hw⟩
  · exact absurd (Option.some.inj h).symm hFloats
  · cases h

/-- Where no further run is taken in, the chain goes on with a run in FLOATS at most. -/
theorem takenRuns_stop {us : List Lex.Tok} (h : ¬ StartsRun us) : takenRuns (chain us) = [] := by
  cases hRun : leadRun us with
  | none =>
    rw [chain_none hRun]
    rfl
  | some p =>
    obtain ⟨⟨v, u⟩, rest⟩ := p
    rw [chain_some hRun]
    have hFloats : u = .floats := by
      by_contra hOther
      apply h
      unfold leadRun at hRun
      split at hRun
      · rename_i v' base raw a rest'
        split at hRun
        · cases hRun
        · rename_i hv
          split at hRun
          · rename_i ha
            exact ⟨v', base, raw, 1, [], a, rest', rfl, Int.not_lt.mp hv, .bytes, ha⟩
          · split at hRun
            · rename_i u' b rest'' hUnit
              split at hRun
              · rename_i hb
                obtain ⟨hPair, rfl⟩ := Prod.mk.inj (Option.some.inj hRun)
                obtain ⟨rfl, rfl⟩ := Prod.mk.inj hPair
                obtain ⟨size, hText⟩ := unitWord_text hUnit hOther
                exact ⟨v', base, raw, size, [.word a], b, rest'', rfl, Int.not_lt.mp hv, hText, hb⟩
              · cases hRun
            · cases hRun
      · cases hRun
    rw [hFloats]
    rfl

theorem allots_taken {n total : Nat} {ts us : List Lex.Tok} (h : AllotsText True n total ts)
    (hStop : ¬ StartsRun us) : total = (takenRuns (chain (ts ++ us))).foldl addRun n := by
  induction h with
  | stop =>
    rw [List.nil_append, takenRuns_stop hStop]
    rfl
  | @run n total unit v base raw a ts unitToks hv hExact hUnit ha hRuns ih =>
    obtain ⟨u, hFloats, hSize, hLead⟩ := unit_run hUnit
    have hFront := hLead v base raw a (ts ++ us) hv ha
    rw [show .int v base raw :: unitToks ++ .word a :: ts ++ us =
      .int v base raw :: unitToks ++ .word a :: (ts ++ us) by simp]
    rw [chain_some hFront, takenRuns_cons hFloats]
    show total = List.foldl addRun (saturatingAdd n (saturatingMul (asU32 v) u.size)) _
    rw [hSize]
    exact ih

/-! Where items are read. -/

section
variable {drops : Prop} {parseLet : String → Except String LetLang.LetForm}

theorem itemsText_split {items : List Item} {ts : List Lex.Tok}
    (h : ItemsText drops parseLet items ts) {before after : List Item} {item : Item}
    (hItems : items = before ++ item :: after) :
    ∃ front own behind, ts = front ++ (own ++ behind) ∧ ItemText drops parseLet item own ∧
      ∀ c, item = .create c → ¬ StartsRun behind := by
  induction h generalizing before with
  | nil => exact absurd hItems (by simp)
  | @cons first items ts us hItem hRest hGreedy ih =>
    cases before with
    | nil =>
      obtain ⟨rfl, rfl⟩ := List.cons.inj hItems
      exact ⟨[], ts, us, rfl, hItem, hGreedy⟩
    | cons b before =>
      obtain ⟨-, hTail⟩ := List.cons.inj hItems
      obtain ⟨front, own, behind, rfl, hOwn, hStop⟩ := ih hTail
      exact ⟨ts ++ front, own, behind, by simp, hOwn, hStop⟩

end

/-- An item that stands in a text with the tokens `own`, in front of the tokens `behind`. -/
def ReadFrom (host : Host) (item : Item) (own behind : List Lex.Tok) : Prop :=
  ∃ text toks prog front, lex text = .ok toks ∧ parse host.parseLet toks = .ok prog ∧
    item ∈ prog.items ∧ codes toks = front ++ (own ++ behind) ∧
    ItemText True host.parseLet item own ∧ ∀ c, item = .create c → ¬ StartsRun behind

section
variable (host : Host) (fs : FileSystem)

theorem parsed_readFrom {contents : String} {items : List Item}
    (h : compileItems host contents = .ok items) :
    ∀ item ∈ items, ∃ own behind, ReadFrom host item own behind := by
  unfold compileItems at h
  split at h
  · cases h
  · rename_i toks hLex
    split at h
    · cases h
    · rename_i prog hParse
      obtain rfl := Except.ok.inj h
      intro item hItem
      obtain ⟨before, after, hSplit⟩ := List.append_of_mem hItem
      obtain ⟨front, own, behind, hCodes, hOwn, hStop⟩ := itemsText_split (parse_text hParse) hSplit
      exact ⟨own, behind, contents, toks, prog, front, hLex, hParse, hItem, hCodes, hOwn, hStop⟩

theorem merged_readFrom (source : String) (ctx : CompileContext) :
    ∀ item ∈ mergedItems host fs source ctx, ∃ own behind, ReadFrom host item own behind :=
  merged_parsed host fs (fun _ _ h => parsed_readFrom host h) source ctx

/-- A text of one item is read from its front. -/
theorem sole_readFrom {text : String} {toks : List Lex.Token} {prog : Program} {item : Item}
    (hLex : lex text = .ok toks) (hParse : parse host.parseLet toks = .ok prog)
    (hSole : prog.items = [item]) : ReadFrom host item (codes toks) [] := by
  have hText := parse_text hParse
  rw [hSole] at hText
  generalize hAll : codes toks = all at hText
  cases hText with
  | cons hItem hRest hGreedy =>
    cases hRest
    rename_i ts
    refine ⟨text, toks, prog, [], hLex, hParse, ?_, ?_, ?_, ?_⟩
    · rw [hSole]
      exact List.mem_singleton.mpr rfl
    · rw [hAll]
      simp
    · simpa using hItem
    · exact hGreedy

end

/-! Requests. -/

/-- What the source asks of one data word. -/
inductive Request where
  /-- The chain of ALLOT runs behind a CREATE. -/
  | allots (runs : List (Int × AllotUnit))
  /-- The elements of an array word. -/
  | elements (count : Int) (size : Nat)
  /-- The count of a template whose constructor is `[CELLS | CHARS | FLOATS] ALLOT`. -/
  | units (count : Int) (unit : AllotUnit)

def Request.bytes : Request → Nat
  | .allots runs => askedBytes runs
  | .elements count size => count.toNat * size
  | .units count unit => count.toNat * unit.size

/-- The buffer has the bytes, one at least, and every element of an array word lies inside. -/
def Request.Met (request : Request) (buffer : Nat) : Prop :=
  max request.bytes 1 ≤ buffer ∧
    match request with
    | .elements count size => ∀ i < count.toNat, i * size + size ≤ buffer
    | _ => True

/-- The bytes fit in 32 bits, and those of a chain are all asked for in front of the first FLOATS. -/
def Request.Fits (request : Request) : Prop :=
  request.bytes ≤ u32Max ∧
    match request with
    | .allots runs => askedBytes runs ≤ max (askedBytes (takenRuns runs)) 1
    | _ => True

def constructorUnit : List Expr → Option AllotUnit
  | [.wordRef a _] => if lower a = "allot" then some .bytes else none
  | [.wordRef u _, .wordRef a _] => if lower a = "allot" then unitWord u else none
  | _ => none

theorem allocBytes_unit {t : TemplateDef} {unit : AllotUnit} (h : constructorUnit t.constructor = some unit)
    (count : Nat) : computeAllocBytes t count = max (saturatingMul count unit.size) 1 := by
  unfold constructorUnit at h
  split at h
  · rename_i a span hConstructor
    split at h
    · rename_i ha
      obtain rfl := Option.some.inj h
      simp [computeAllocBytes, hConstructor, ha, AllotUnit.size]
    · cases h
  · rename_i u span a span' hConstructor
    split at h
    · rename_i ha
      unfold unitWord at h
      split at h
      · rename_i hu
        obtain rfl := Option.some.inj h
        simp [computeAllocBytes, hConstructor, ha, hu, AllotUnit.size]
      · rename_i hu
        obtain rfl := Option.some.inj h
        simp [computeAllocBytes, hConstructor, ha, hu, AllotUnit.size]
      · rename_i hu
        obtain rfl := Option.some.inj h
        simp [computeAllocBytes, hConstructor, ha, hu, AllotUnit.size]
      · cases h
    · cases h
  · cases h

/-! The buffers of a program. -/

/-- The size of the buffer that a line makes. -/
def Line.buffer : Line → Option Int
  | .exec (.int n :: .name "<buffer>" :: _) => some n
  | _ => none

/-- The sizes of the buffers that the declaration of an item makes. -/
def Item.buffers (r : Sema) (aux : List String) (item : Item) : List Int :=
  (Item.declaration r aux item).filterMap Line.buffer

section
variable (r : Sema) (aux : List String)

theorem create_buffers (c : CreateDef) :
    Item.buffers r aux (.create c) = [((max c.allottedBytes 1 : Nat) : Int)] := by
  show [max (c.allottedBytes : Int) 1] = _
  congr 1
  omega

theorem collection_buffers (c : CollectionDef) : Item.buffers r aux (.collection c) =
    [((max (saturatingMul c.count c.kind.eltSize) 1 : Nat) : Int)] := rfl

theorem instance_buffers (ti : TemplateInstanceDef) :
    Item.buffers r aux (.templateInstance ti) = [((max ti.allocatedBytes 1 : Nat) : Int)] := by
  show [max (ti.allocatedBytes : Int) 1] = _
  congr 1
  omega

/-- CREATE, the array words and the instances are the data words. -/
theorem buffers_data {item : Item} (h : Item.buffers r aux item ≠ []) :
    (∃ c, item = .create c) ∨ (∃ c, item = .collection c) ∨ ∃ ti, item = .templateInstance ti := by
  match item, h with
  | .create c, _ => exact .inl ⟨c, rfl⟩
  | .collection c, _ => exact .inr (.inl ⟨c, rfl⟩)
  | .templateInstance ti, _ => exact .inr (.inr ⟨ti, rfl⟩)
  | .variable v, h =>
    apply absurd _ h
    show (emitVariable v r).filterMap Line.buffer = []
    unfold emitVariable
    split <;> rfl
  | .constant c, h =>
    apply absurd _ h
    show [emitConstant c r].filterMap Line.buffer = []
    unfold emitConstant
    cases c.value <;> rfl
  | .class_ c, h =>
    apply absurd _ h
    show (emitClass c r).filterMap Line.buffer = []
    unfold emitClass
    rw [List.filterMap_cons_none rfl, List.filterMap_cons_none rfl, List.filterMap_flatMap]
    exact List.flatMap_eq_nil_iff.mpr fun s _ => rfl
  | .generic g, h =>
    apply absurd _ h
    show (emitGeneric g aux).filterMap Line.buffer = []
    unfold emitGeneric
    dsimp only
    split
    · split <;> rfl
    · rfl
  | .definition _, h | .topLevel _ _, h | .template _, h | .value _, h | .method _, h
  | .rawFactor _, h | .needs _ _, h => exact absurd rfl h

end

section
variable (host : Host) (fs : FileSystem) (source : String) (ctx : CompileContext)

/-- What the texts of a compile ask of a data word of its program. -/
inductive Requested : Item → Request → Prop
  | create {c : CreateDef} {k : String} {own behind : List Lex.Tok}
      (hItem : .create c ∈ mergedItems host fs source ctx)
      (hText : ReadFrom host (.create c) (.word k :: .word c.name :: own) behind) :
      Requested (.create c) (.allots (chain (own ++ behind)))
  | collection {c : CollectionDef} {v : Int} {base : Lex.NumBase} {raw k : String}
      {behind : List Lex.Tok} (hItem : .collection c ∈ mergedItems host fs source ctx)
      (hText : ReadFrom host (.collection c) [.int v base raw, .word k, .word c.name] behind) :
      Requested (.collection c) (.elements v c.kind.eltSize)
  | units {exprs : List Expr} {span : Span} {u : TemplateUse} {n : Nat} {unit : AllotUnit}
      (hItem : .topLevel exprs span ∈ mergedItems host fs source ctx)
      (hUse : .inr u ∈ pieces (compileTemplates host fs source ctx) exprs)
      (hUnit : constructorUnit u.template.constructor = some unit) :
      Requested (.templateInstance { u.made with doesBody := (qdupSeq u.made.doesBody n).1 })
        (.units u.count unit)

variable {host fs source ctx}

theorem elements_met_iff {v : Int} {size : Nat} (hSize : 0 < size) :
    (Request.elements v size).Met (max (saturatingMul (asU32 v) size) 1) ↔
      (Request.elements v size).Fits := by
  unfold Request.Met Request.Fits
  rw [Request.bytes, product_enough_iff hSize, and_true]
  constructor
  · exact And.left
  · intro hFits
    refine ⟨hFits, fun i hi => ?_⟩
    rw [saturatingMul_exact hSize hFits, ← Nat.succ_mul]
    exact (Nat.mul_le_mul_right size hi).trans (Nat.le_max_left _ _)

/-- A request is met by the one buffer of its word exactly when it fits. -/
theorem request_met_iff (r : Sema) (aux : List String) {item : Item} {request : Request}
    (h : Requested host fs source ctx item request) :
    ∃ n : Nat, Item.buffers r aux item = [(n : Int)] ∧ (request.Met n ↔ request.Fits) := by
  cases h with
  | @create c k own behind hItem hText =>
    refine ⟨_, create_buffers r aux c, ?_⟩
    obtain ⟨text, toks, prog, front, -, -, -, -, hOwn, hStop⟩ := hText
    cases hOwn with
    | create hk hRuns =>
      unfold Request.Met Request.Fits
      rw [Request.bytes, allots_taken hRuns (hStop c rfl), and_true]
      exact chain_enough_iff _
  | @collection c v base raw k behind hItem hText =>
    refine ⟨_, collection_buffers r aux c, ?_⟩
    obtain ⟨text, toks, prog, front, -, -, -, -, hOwn, -⟩ := hText
    cases hOwn with
    | collection hk hv hCount hExact =>
      rw [← hCount]
      apply elements_met_iff
      cases c.kind <;> decide
  | @units exprs span u n unit hItem hUse hUnit =>
    refine ⟨_, instance_buffers r aux _, ?_⟩
    have hBytes : max u.made.allocatedBytes 1 = max (saturatingMul (asU32 u.count) unit.size) 1 := by
      show max (computeAllocBytes u.template (asU32 u.count)) 1 = _
      rw [allocBytes_unit hUnit]
      omega
    show (Request.units u.count unit).Met (max u.made.allocatedBytes 1) ↔ _
    rw [hBytes]
    unfold Request.Met Request.Fits
    rw [Request.bytes, product_enough_iff unit.size_pos]

end

/-! The passes keep the data words. -/

theorem mem_layout {current : List Expr} {ps : List (Expr ⊕ TemplateUse)} {item : Item}
    (h : item ∈ layout current ps) :
    (∃ exprs span, item = .topLevel exprs span) ∨
      ∃ u, .inr u ∈ ps ∧ item = .templateInstance u.made := by
  have hFlush : ∀ run : List Expr, item ∈ flushCurrent run → ∃ exprs span, item = .topLevel exprs span := by
    intro run hRun
    cases run with
    | nil => cases hRun
    | cons e es => exact ⟨_, _, List.mem_singleton.mp hRun⟩
  induction ps generalizing current with
  | nil => exact .inl (hFlush _ h)
  | cons p ps ih =>
    cases p with
    | inl e =>
      rcases ih h with hTop | ⟨u, hu, hItem⟩
      · exact .inl hTop
      · exact .inr ⟨u, List.mem_cons_of_mem _ hu, hItem⟩
    | inr u =>
      rcases List.mem_append.mp h with hRun | hRest
      · exact .inl (hFlush _ hRun)
      · rcases List.mem_cons.mp hRest with rfl | hRest
        · exact .inr ⟨u, List.mem_cons_self, rfl⟩
        · rcases ih hRest with hTop | ⟨u', hu, hItem⟩
          · exact .inl hTop
          · exact .inr ⟨u', List.mem_cons_of_mem _ hu, hItem⟩

section
variable {host : Host} {fs : FileSystem} {source : String} {ctx : CompileContext} {synth : Nat}

/-- An item behind the expansion is a merged one, or comes of a run. -/
theorem mem_expandedItems {item : Item} (h : item ∈ expandedItems host fs source ctx) :
    item ∈ mergedItems host fs source ctx ∨ (∃ exprs span, item = .topLevel exprs span) ∨
      ∃ exprs span u, .topLevel exprs span ∈ mergedItems host fs source ctx ∧
        .inr u ∈ pieces (compileTemplates host fs source ctx) exprs ∧
        item = .templateInstance u.made := by
  unfold expandedItems at h
  rw [expandTemplates_eq] at h
  split at h
  · exact .inl h
  · obtain ⟨own, hOwn, hIn⟩ := List.mem_flatMap.mp h
    cases own with
    | topLevel exprs span =>
      have hLaid : item ∈ layout [] (pieces (compileTemplates host fs source ctx) exprs) := by
        rw [← (expandToplevel_layout [] exprs).1 rfl]
        exact hIn
      rcases mem_layout hLaid with hTop | ⟨u, hu, hItem⟩
      · exact .inr (.inl hTop)
      · exact .inr (.inr ⟨exprs, span, u, hOwn, hu, hItem⟩)
    | _ =>
      obtain rfl := List.mem_singleton.mp hIn
      exact .inl hOwn

/-- An item of the program is one of the expanded ones behind the three passes. -/
theorem mem_program {m : Sema} (h : (analyse host fs source ctx synth).result = .ok m) {item : Item}
    (hItem : item ∈ m.program.items) :
    ∃ own ∈ expandedItems host fs source ctx, ∃ k,
      item = Item.lowerExit m.wordTargets ((own.lowerQdup k).1.lowerRecurse) := by
  obtain ⟨built, docs, synth', hBuild, rfl⟩ := analyse_build host fs source ctx synth h
  obtain ⟨words, targets, -, -, rfl⟩ := build_ok hBuild
  obtain ⟨recursed, hRecursed, rfl⟩ := List.mem_map.mp hItem
  obtain ⟨lowered, hLowered, rfl⟩ := List.mem_map.mp hRecursed
  obtain ⟨own, hOwn, k, rfl⟩ := mem_lowerQdupItems hLowered
  exact ⟨own, hOwn, k, rfl⟩

/-- A data word of the program is one of the texts, or the instance of a use. -/
theorem data_origin {own : Item} {targets : Dict Span Target} {k : Nat} :
    (∀ c, Item.lowerExit targets ((own.lowerQdup k).1.lowerRecurse) = .create c → own = .create c) ∧
    (∀ c, Item.lowerExit targets ((own.lowerQdup k).1.lowerRecurse) = .collection c →
      own = .collection c) ∧
    ∀ ti, Item.lowerExit targets ((own.lowerQdup k).1.lowerRecurse) = .templateInstance ti →
      ∃ ti', own = .templateInstance ti' ∧
        ti = { ti' with doesBody := (qdupSeq ti'.doesBody k).1 } := by
  refine ⟨fun c h => ?_, fun c h => ?_, fun ti h => ?_⟩
  · cases own with
    | create c' => exact h
    | constant c' =>
      rcases c' with ⟨name, nameSpan, value, span, flavour⟩
      cases value <;> cases h
    | _ => cases h
  · cases own with
    | collection c' => exact h
    | constant c' =>
      rcases c' with ⟨name, nameSpan, value, span, flavour⟩
      cases value <;> cases h
    | _ => cases h
  · cases own with
    | templateInstance ti' => exact ⟨ti', rfl, (Item.templateInstance.inj h).symm⟩
    | constant c' =>
      rcases c' with ⟨name, nameSpan, value, span, flavour⟩
      cases value <;> cases h
    | _ => cases h

/-- Whatever is asked of a data word of an accepted compile is met exactly when it fits, and of every
data word something is asked, but for instances of templates with another constructor. -/
theorem compile_buffers {m : Sema} (h : (analyse host fs source ctx synth).result = .ok m)
    {item : Item} (hItem : item ∈ m.program.items) :
    (∀ request, Requested host fs source ctx item request →
      ∃ n : Nat, Item.buffers m (auxGenerics m.program.items) item = [(n : Int)] ∧
        (request.Met n ↔ request.Fits)) ∧
    (Item.buffers m (auxGenerics m.program.items) item ≠ [] →
      (∃ request, Requested host fs source ctx item request) ∨
      ∃ exprs span u n, .topLevel exprs span ∈ mergedItems host fs source ctx ∧
        .inr u ∈ pieces (compileTemplates host fs source ctx) exprs ∧
        constructorUnit u.template.constructor = none ∧
        item = .templateInstance { u.made with doesBody := (qdupSeq u.made.doesBody n).1 }) := by
  refine ⟨fun request hRequest => request_met_iff m _ hRequest, fun hBuffer => ?_⟩
  obtain ⟨own, hOwn, k, rfl⟩ := mem_program h hItem
  obtain ⟨hCreate, hCollection, hInstance⟩ := @data_origin own m.wordTargets k
  rcases buffers_data m _ hBuffer with ⟨c, hc⟩ | ⟨c, hc⟩ | ⟨ti, hti⟩
  · obtain rfl := hCreate c hc
    have hMerged : .create c ∈ mergedItems host fs source ctx := by
      rcases mem_expandedItems hOwn with hIn | ⟨exprs, span, hTop⟩ | ⟨exprs, span, u, -, -, hMade⟩
      · exact hIn
      · cases hTop
      · cases hMade
    obtain ⟨ownToks, behind, hText⟩ := merged_readFrom host fs source ctx _ hMerged
    have hShape := hText
    obtain ⟨text, toks, prog, front, -, -, -, -, hItemText, -⟩ := hShape
    cases hItemText with
    | create hk hRuns =>
      rw [hc]
      exact .inl ⟨_, .create hMerged hText⟩
  · obtain rfl := hCollection c hc
    have hMerged : .collection c ∈ mergedItems host fs source ctx := by
      rcases mem_expandedItems hOwn with hIn | ⟨exprs, span, hTop⟩ | ⟨exprs, span, u, -, -, hMade⟩
      · exact hIn
      · cases hTop
      · cases hMade
    obtain ⟨ownToks, behind, hText⟩ := merged_readFrom host fs source ctx _ hMerged
    have hShape := hText
    obtain ⟨text, toks, prog, front, -, -, -, -, hItemText, -⟩ := hShape
    cases hItemText with
    | collection hk hv hCount hExact =>
      rw [hc]
      exact .inl ⟨_, .collection hMerged hText⟩
  · obtain ⟨ti', rfl, rfl⟩ := hInstance ti hti
    rcases mem_expandedItems hOwn with hIn | ⟨exprs, span, hTop⟩ | ⟨exprs, span, u, hRun, hu, hMade⟩
    · exact absurd hIn (merged_no_instance host fs source ctx ti')
    · cases hTop
    · obtain rfl := Item.templateInstance.inj hMade
      rw [hti]
      cases hUnit : constructorUnit u.template.constructor with
      | none => exact .inr ⟨exprs, span, u, k, hRun, hu, hUnit, rfl⟩
      | some unit => exact .inl ⟨_, .units hRun hu hUnit⟩

/-- An array, a CREATE with a chain and the instance of a template. -/
theorem compile_buffers_three :
    ∃ m, (analyse noLet noFiles
        "10 array a create b 2 cells allot 3 allot : row: create cells allot does> ; 4 row: c" .new
        synthCounterStart).result = .ok m ∧
      ∀ item ∈ m.program.items, ∀ request, Requested noLet noFiles
          "10 array a create b 2 cells allot 3 allot : row: create cells allot does> ; 4 row: c" .new
          item request →
        ∃ n : Nat, Item.buffers m (auxGenerics m.program.items) item = [(n : Int)] ∧
          (request.Met n ↔ request.Fits) := by
  let source :=
    "10 array a create b 2 cells allot 3 allot : row: create cells allot does> ; 4 row: c"
  have hOk : (analyse noLet noFiles source .new synthCounterStart).result.isOk = true := by
    decide +kernel
  cases h : (analyse noLet noFiles source .new synthCounterStart).result with
  | error e =>
    rw [h] at hOk
    cases hOk
  | ok m => exact ⟨m, rfl, fun item hItem => (compile_buffers h hItem).1⟩

/-- A collection that is the whole source is asked for the count in front of it. -/
theorem collection_requested (host : Host) (fs : FileSystem) {source : String} (ctx : CompileContext)
    {toks : List Lex.Token} {c : CollectionDef} {v : Int} {base : Lex.NumBase} {raw k : String}
    (hLex : lex source = .ok toks) (hItems : compileItems host source = .ok [.collection c])
    (hCodes : codes toks = [.int v base raw, .word k, .word c.name]) :
    Requested host fs source ctx (.collection c) (.elements v c.kind.eltSize) := by
  have hMerged : mergedItems host fs source ctx = [.collection c] := by
    unfold mergedItems
    rw [hItems]
    dsimp only
    rw [expandNeeds_self host fs (fun path span h => by cases h with | tail _ h => cases h)]
  have hText : ReadFrom host (.collection c) [.int v base raw, .word k, .word c.name] [] := by
    unfold compileItems at hItems
    rw [hLex] at hItems
    dsimp only at hItems
    cases hParse : parse host.parseLet toks with
    | error e =>
      rw [hParse] at hItems
      cases hItems
    | ok prog =>
      rw [hParse] at hItems
      have hRead := sole_readFrom host hLex hParse (Except.ok.inj hItems)
      rwa [hCodes] at hRead
  exact .collection (hMerged ▸ List.mem_singleton.mpr rfl) hText

def Item.collected : Item → Option CollectionDef
  | .collection c => some c
  | _ => none

theorem sole_collection {items : List Item} {c : CollectionDef}
    (h : items.map Item.collected = [some c]) : items = [.collection c] := by
  obtain ⟨item, rfl⟩ := List.length_eq_one_iff.mp (by simpa using congrArg List.length h)
  obtain ⟨hItem, -⟩ := List.cons.inj h
  cases item with
  | collection c' => rw [Option.some.inj hItem]
  | _ => cases hItem

/-- The count of an array wraps at 32 bits: one cell for 2³² + 1 of them. -/
theorem compile_not_buffers :
    ¬ ∀ (source : String) (m : Sema),
      (analyse noLet noFiles source .new synthCounterStart).result = .ok m →
      ∀ item ∈ m.program.items, ∀ request, Requested noLet noFiles source .new item request →
        ∃ n : Nat, Item.buffers m (auxGenerics m.program.items) item = [(n : Int)] ∧
          request.Met n := by
  intro hAll
  let source := "4294967297 array a"
  let c : CollectionDef :=
    ⟨"a", ⟨⟨1, 18, 17⟩, ⟨1, 19, 18⟩⟩, .array, 1, ⟨⟨1, 1, 0⟩, ⟨1, 19, 18⟩⟩⟩
  have hCodes : (lex source).toOption.map codes =
      some [.int 4294967297 .decimal "4294967297", .word "array", .word "a"] := by
    decide +kernel
  have hParsed : (compileItems noLet source).toOption.map (List.map Item.collected) =
      some [some c] := by
    decide +kernel
  have hBuilt : (analyse noLet noFiles source .new synthCounterStart).result.toOption.map
      (fun m => m.program.items.map Item.collected) = some [some c] := by
    decide +kernel
  cases hLex : lex source with
  | error e =>
    rw [hLex] at hCodes
    cases hCodes
  | ok toks =>
    rw [hLex] at hCodes
    cases hItems : compileItems noLet source with
    | error e =>
      rw [hItems] at hParsed
      cases hParsed
    | ok items =>
      rw [hItems] at hParsed
      obtain rfl := sole_collection (Option.some.inj hParsed)
      have hAsked := collection_requested noLet noFiles .new hLex hItems (Option.some.inj hCodes)
      cases h : (analyse noLet noFiles source .new synthCounterStart).result with
      | error e =>
        rw [h] at hBuilt
        cases hBuilt
      | ok m =>
        rw [h] at hBuilt
        have hIn : .collection c ∈ m.program.items := by
          rw [sole_collection (Option.some.inj hBuilt)]
          exact List.mem_singleton.mpr rfl
        obtain ⟨n, hn, hMet, -⟩ := hAll source m h _ hIn _ hAsked
        rw [collection_buffers] at hn
        have hSmall : n = 8 := (Int.ofNat.inj (List.cons.inj hn).1).symm
        rw [hSmall] at hMet
        exact absurd hMet (by decide)

end

end FactorForth.Correctness
