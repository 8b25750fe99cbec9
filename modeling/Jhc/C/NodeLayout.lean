import Mathlib
import Jhc.C.Rep
import Jhc.Lib.SortUnder

/-!
# Layout of nodes (C/FromGrin2.hs:291-320, 808-862; C/Generate.hs:155, 598-617)

The structure that is emitted for a tag, and the number of pointers that the collector
is told about. Two places decide on the order: one counts slots by their Grin types, the
other sorts fields by their C types.
-/

namespace Jhc.C
open Jhc.Grin (Atom Tag TyTy TyEnv findTyTy tagIsSuspFunction cChar cWord cInt)
open Jhc.Lib (sortUnder)

/-! ### C types (Generate.hs:155; FromGrin2.hs:291-320, 977-980) -/

inductive CType where
  | tb (s : String) (gc : Bool)
  | tPtr (t : CType)
  | tAnon (ts : List CType)
  | tNStruct (n : String)
  | tFunPtr (r : CType) (as : List CType)

def tyToCBits (b : Cmm.TyBits) : Cmm.TyHint → Option String
  | .hintUnsigned =>
    match b with
    | .bits n => some ("uint" ++ toString n ++ "_t")
    | .bitsArch .bitsMax => some "uintmax_t"
    | .bitsArch .bitsPtr => some "uintptr_t"
    | _ => none
  | .hintSigned =>
    match b with
    | .bits n => some ("int" ++ toString n ++ "_t")
    | .bitsArch .bitsMax => some "intmax_t"
    | .bitsArch .bitsPtr => some "intptr_t"
    | _ => none
  | .hintFloat =>
    match b with
    | .bits n =>
      if n = 32 then some "float" else if n = 64 then some "double" else if n = 128 then some "__float128" else none
    | _ => none
  | _ => none

/-- `none` where the source has an error. -/
def tyToC (dh : Cmm.TyHint) : Cmm.Ty → Option String
  | .tyBool => some "bool"
  | .tyComplex t => (tyToC dh t).map ("_Complex " ++ ·)
  | .tyBits (.bitsExt s) _ => some s
  | .tyBits b .hintNone => tyToCBits b dh
  | .tyBits b h => tyToCBits b h
  | .tyVector _ _ => none

def opTyToC (t : Cmm.Ty) : Option CType := (tyToC .hintUnsigned t).map fun s => .tb s false

def sptr_t : CType := .tb "sptr_t" true
def fptr_t : CType := .tb "fptr_t" true
def wptr_t : CType := .tb "wptr_t" true

def convertType : Grin.Ty → Option CType
  | .tyNode => some wptr_t
  | .tyINode => some sptr_t
  | .tyPtr .tyINode => some (.tPtr sptr_t)
  | .tyPtr .tyNode => some (.tPtr wptr_t)
  | .tyPrim t => opTyToC t
  | _ => none

/-! ### declareStruct (FromGrin2.hs:842-862), declStructs (Generate.hs:598-617) -/

/-- A word of the structure: the tag that the emitter puts first, the code pointer of a
suspended call, or a slot. -/
inductive Field where
  | what
  | head
  | slot (i : ℕ)
  deriving DecidableEq, Repr

structure Structure where
  structureFields : List (Field × CType)
  structureNeedsDiscriminator : Bool
  structureHasDiscriminator : Bool

def slotFields (ts : List CType) : List (Field × CType) := ts.mapIdx fun i t => (.slot i, t)

def declareStruct (fullInt : Bool) (tyenv : TyEnv) (n : Tag) : Option Structure := do
  let t ← findTyTy tyenv n
  let ts' ← t.tySlots.mapM convertType
  let (dis, needsDis) :=
    if tagIsSuspFunction n then ([(Field.head, fptr_t)], false)
    else if t.tySlots = [] then ([], false)
    else if cpr fullInt tyenv n = some .tyRepUntagged then ([], false)
    else if t.tySiblings = some [n] then ([], false)
    else ([], true)
  some ⟨dis ++ slotFields ts', needsDis, !dis.isEmpty⟩

def CType.isGC : CType → Bool
  | tb _ true => true
  | _ => false

def numGC (ts : List (Field × CType)) : ℕ := ts.countP fun t => t.2.isGC

/-- Pointers first, garbage collected, then the rest. -/
def cmp (ppri : ℕ) : CType → ℕ
  | .tb _ true => 1
  | .tFunPtr _ _ => ppri
  | .tPtr _ => ppri
  | .tb s false =>
    if s = "uintmax_t" then 3 else if s = "uintptr_t" then ppri else if s = "double" then 4
    else if s = "uint32_t" then 6 else if s = "float" then 6 else if s = "uint16_t" then 7
    else if s = "uint8_t" then 8 else 5
  | _ => 5

def rsort (ppri : ℕ) (ts : List (Field × CType)) : List (Field × CType) := sortUnder (fun t => cmp ppri t.2) ts

/-- The fields in the order in which they are emitted. -/
def declStruct (s : Structure) : List Field :=
  let ppri := if numGC s.structureFields ≠ 0 then 2 else 5
  let ts' :=
    match s.structureFields with
    | [] => []
    | t :: ts => if s.structureHasDiscriminator then t :: rsort ppri ts else rsort ppri (t :: ts)
  (if s.structureNeedsDiscriminator then [.what] else []) ++ ts'.map Prod.fst

/-! ### newNode (FromGrin2.hs:808-833) -/

def isPtr : Grin.Ty → Bool
  | .tyPtr _ => true
  | .tyNode => true
  | .tyINode => true
  | _ => false

/-- The number of pointers that `newNode` registers for the cache of a tag; `none` where
the node needs no memory. -/
def newNode (fullInt : Bool) (tyenv : TyEnv) (t : Tag) (as : List Grin.Val) : Option ℕ :=
  match basicNode fullInt tyenv t as with
  | some _ => none
  | none =>
    let sf := tagIsSuspFunction t
    let nptrs := as.countP (fun a => a.getType.any isPtr) + if sf then 1 else 0
    some (if 0 < nptrs ∧ !sf ∧ cpr fullInt tyenv t = none then nptrs + 1 else nptrs)

/-! ### The slots as fields -/

def CType.isPtr : CType → Bool
  | tb _ gc => gc
  | tPtr _ => true
  | _ => false

section
variable {ts : List Grin.Ty} {ts' : List CType}

attribute [local grind =] tyToC convertType

theorem mapM_convertType (h : ts.mapM convertType = some ts') :
    List.Forall₂ (fun s t => convertType s = some t) ts ts' := by
  induction ts generalizing ts' with
  | nil =>
    simp at h
    subst h
    exact .nil
  | cons s ss ih =>
    simp only [List.mapM_cons, Option.pure_def, Option.bind_eq_bind, Option.bind_eq_some_iff,
      Option.some.injEq] at h
    obtain ⟨t, ht, ts, hts, rfl⟩ := h
    exact .cons ht (ih hts)

theorem isPtr_convertType {s : Grin.Ty} {t : CType} (h : convertType s = some t) : t.isPtr = isPtr s := by
  unfold convertType at h
  split at h
  · cases h; rfl
  · cases h; rfl
  · cases h; rfl
  · cases h; rfl
  · simp only [opTyToC, Option.map_eq_some_iff] at h
    obtain ⟨c, -, rfl⟩ := h
    rfl
  · cases h

theorem isGC_convertType {s : Grin.Ty} {t : CType} (h : convertType s = some t) :
    t.isGC = true ↔ s = .tyNode ∨ s = .tyINode := by
  unfold convertType at h
  split at h
  · cases h; simp [CType.isGC, wptr_t]
  · cases h; simp [CType.isGC, sptr_t]
  · cases h; simp [CType.isGC]
  · cases h; simp [CType.isGC]
  · simp only [opTyToC, Option.map_eq_some_iff] at h
    obtain ⟨c, -, rfl⟩ := h
    simp [CType.isGC]
  · cases h

theorem countP_convertType (h : ts.mapM convertType = some ts') :
    ts'.countP CType.isPtr = ts.countP isPtr := by
  have hall := mapM_convertType h
  clear h
  induction hall with
  | nil => rfl
  | cons hst _ ih => rw [List.countP_cons, List.countP_cons, ih, isPtr_convertType hst]

theorem mem_slotFields {x : Field × CType} : x ∈ slotFields ts' ↔ ∃ i t, ts'[i]? = some t ∧ x = (.slot i, t) := by
  simp only [slotFields, List.mem_mapIdx, List.getElem?_eq_some_iff]
  constructor
  · rintro ⟨i, hi, rfl⟩
    exact ⟨i, _, ⟨hi, rfl⟩, rfl⟩
  · rintro ⟨i, t, ⟨hi, rfl⟩, rfl⟩
    exact ⟨i, hi, rfl⟩

/-- The order of the slots. -/
def Before (x y : Field × CType) : Prop := ∃ i j, x.1 = .slot i ∧ y.1 = .slot j ∧ i < j

theorem before_asymm {x y : Field × CType} (h : Before x y) : ¬ Before y x := by
  rintro ⟨i, j, hi, hj, hij⟩
  obtain ⟨i', j', hi', hj', hij'⟩ := h
  have h₁ : i' = j := Field.slot.inj (hi'.symm.trans hj)
  have h₂ : j' = i := Field.slot.inj (hj'.symm.trans hi)
  omega

theorem slotFields_pairwise : (slotFields ts').Pairwise Before := by
  refine List.pairwise_iff_getElem.2 fun i j hi hj hij => ⟨i, j, ?_, ?_, hij⟩ <;> simp [slotFields]

theorem slotFields_nodup : ((slotFields ts').map Prod.fst).Nodup := by
  refine List.pairwise_map.2 (slotFields_pairwise.imp fun h heq => ?_)
  obtain ⟨i, j, hi, hj, hij⟩ := h
  rw [hi, hj] at heq
  have := Field.slot.inj heq
  omega

theorem countP_slotFields : (slotFields ts').countP (fun x => x.2.isPtr) = ts'.countP CType.isPtr := by
  have hsnd : (slotFields ts').map Prod.snd = ts' := by
    refine List.ext_getElem (by simp [slotFields]) fun i hi hi' => ?_
    simp [slotFields]
  calc (slotFields ts').countP (fun x => x.2.isPtr) = ((slotFields ts').map Prod.snd).countP CType.isPtr := by
        rw [List.countP_map]
        rfl
    _ = ts'.countP CType.isPtr := by rw [hsnd]

end

/-! ### Where the two orders differ -/

def cSlot : Grin.Ty → Option String
  | .tyPrim t => tyToC .hintUnsigned t
  | _ => none

/-- A slot without pointer that the emitter puts before one that points to an array. With
a node among the fields only `uintptr_t` is a word of the rank of such a pointer; without
one, all that has no rank of its own is. -/
def Misordered (sf : Bool) (slots : List Grin.Ty) : Prop :=
  ∃ (i j : ℕ) (c : String) (r : Grin.Ty), slots[j]? = some (.tyPtr r) ∧ slots[i]?.bind cSlot = some c ∧
    if sf = true ∨ .tyNode ∈ slots ∨ .tyINode ∈ slots then c = "uintptr_t" ∧ i < j
    else c = "uintmax_t" ∨ c = "double" ∨ (c ∉ ["uint32_t", "float", "uint16_t", "uint8_t"] ∧ i < j)

theorem cmp_gc {c : String} {i j : ℕ} :
    (cmp 2 (.tb c false) < 2 ∨ cmp 2 (.tb c false) = 2 ∧ i < j) ↔ c = "uintptr_t" ∧ i < j := by
  simp only [cmp]
  split_ifs with h₁ h₂ h₃ h₄ h₅ h₆ h₇ <;> simp_all

theorem cmp_no_gc {c : String} {i j : ℕ} :
    (cmp 5 (.tb c false) < 5 ∨ cmp 5 (.tb c false) = 5 ∧ i < j) ↔
      c = "uintmax_t" ∨ c = "double" ∨ (c ∉ ["uint32_t", "float", "uint16_t", "uint8_t"] ∧ i < j) := by
  simp only [cmp]
  split_ifs with h₁ h₂ h₃ h₄ h₅ h₆ h₇ <;> simp_all

section
variable {ts : List Grin.Ty} {ts' : List CType} {sf : Bool}

theorem getElem?_convertType (h : ts.mapM convertType = some ts') {i : ℕ} {t : CType} :
    ts'[i]? = some t ↔ ∃ s, ts[i]? = some s ∧ convertType s = some t := by
  have hall := mapM_convertType h
  clear h
  induction hall generalizing i with
  | nil => simp
  | @cons s u ss us hst _ ih =>
    cases i with
    | zero =>
      simp only [List.getElem?_cons_zero, Option.some.injEq, exists_eq_left', hst]
    | succ i => simpa using ih

/-- The fields of a structure are sorted as if there were a node among them when there
is one, or a code pointer. -/
theorem numGC_slotFields (h : ts.mapM convertType = some ts') :
    numGC (slotFields ts') ≠ 0 ↔ .tyNode ∈ ts ∨ .tyINode ∈ ts := by
  have hpos : numGC (slotFields ts') ≠ 0 ↔ ∃ x ∈ slotFields ts', x.2.isGC = true := by
    rw [← Nat.pos_iff_ne_zero, numGC, List.countP_pos_iff]
  rw [hpos]
  constructor
  · rintro ⟨x, hx, hgc⟩
    obtain ⟨i, t, ht, rfl⟩ := mem_slotFields.1 hx
    obtain ⟨s, hs, hst⟩ := (getElem?_convertType h).1 ht
    have hmem := List.mem_of_getElem? hs
    rcases (isGC_convertType hst).1 hgc with rfl | rfl
    · exact .inl hmem
    · exact .inr hmem
  · intro hmem
    have hex : ∃ s ∈ ts, s = .tyNode ∨ s = .tyINode := by
      rcases hmem with hmem | hmem
      · exact ⟨_, hmem, .inl rfl⟩
      · exact ⟨_, hmem, .inr rfl⟩
    obtain ⟨s, hs, hnode⟩ := hex
    obtain ⟨i, hi⟩ := List.getElem?_of_mem hs
    have hconv : ∃ t, convertType s = some t := by
      rcases hnode with rfl | rfl
      · exact ⟨_, rfl⟩
      · exact ⟨_, rfl⟩
    obtain ⟨t, ht⟩ := hconv
    exact ⟨(.slot i, t), mem_slotFields.2 ⟨i, t, (getElem?_convertType h).2 ⟨s, hi, ht⟩, rfl⟩,
      (isGC_convertType ht).2 hnode⟩

/-- A slot with its C type, by whether it is a pointer. -/
theorem convertType_cases {s : Grin.Ty} {t : CType} (h : convertType s = some t) :
    (cSlot s = none ∧ isPtr s = true ∧ ((t.isGC = true ∧ cmp 2 t = 1 ∧ cmp 5 t = 1 ∧ ∀ r, s ≠ Grin.Ty.tyPtr r) ∨
      ∃ r, s = .tyPtr r ∧ cmp 2 t = 2 ∧ cmp 5 t = 5)) ∨
    ∃ c, cSlot s = some c ∧ isPtr s = false ∧ t = .tb c false := by
  unfold convertType at h
  split at h
  · cases h
    exact .inl ⟨rfl, rfl, .inl ⟨rfl, rfl, rfl, by simp⟩⟩
  · cases h
    exact .inl ⟨rfl, rfl, .inl ⟨rfl, rfl, rfl, by simp⟩⟩
  · cases h
    exact .inl ⟨rfl, rfl, .inr ⟨_, rfl, rfl, rfl⟩⟩
  · cases h
    exact .inl ⟨rfl, rfl, .inr ⟨_, rfl, rfl, rfl⟩⟩
  · simp only [opTyToC, Option.map_eq_some_iff] at h
    obtain ⟨c, hc, rfl⟩ := h
    exact .inr ⟨c, hc, rfl, rfl⟩
  · cases h

/-- In the sorted slots the pointers come first unless the orders differ. -/
theorem rsort_pointers_first (h : ts.mapM convertType = some ts') {ppri : ℕ}
    (hppri : ppri = if sf = true ∨ .tyNode ∈ ts ∨ .tyINode ∈ ts then 2 else 5) :
    (rsort ppri (slotFields ts')).Pairwise (fun x y => y.2.isPtr = true → x.2.isPtr = true) ↔
      ¬ Misordered sf ts := by
  rw [rsort, Jhc.Lib.sortUnder_pairwise_iff (fun _ _ => before_asymm) slotFields_pairwise]
  -- a pair that is out of order, with its slots
  have hpair : ∀ i j c r t u, ts[i]? = some t → cSlot t = some c → ts[j]? = some (.tyPtr r) →
      convertType (.tyPtr r) = some u →
      (Jhc.Lib.Under (fun t : Field × CType => cmp ppri t.2) Before (.slot i, .tb c false) (.slot j, u) ↔
        if sf = true ∨ .tyNode ∈ ts ∨ .tyINode ∈ ts then c = "uintptr_t" ∧ i < j
        else c = "uintmax_t" ∨ c = "double" ∨ (c ∉ ["uint32_t", "float", "uint16_t", "uint8_t"] ∧ i < j)) := by
    intro i j c r t u ht hc hj hu
    have hbefore : Before (.slot i, .tb c false) (.slot j, u) ↔ i < j := by
      constructor
      · rintro ⟨i', j', hi', hj', hij⟩
        have h₁ : i = i' := Field.slot.inj hi'
        have h₂ : j = j' := Field.slot.inj hj'
        omega
      · exact fun hij => ⟨i, j, rfl, rfl, hij⟩
    have hcmp : cmp 2 u = 2 ∧ cmp 5 u = 5 := by
      rcases convertType_cases hu with ⟨-, -, ⟨-, -, -, hne⟩ | ⟨r', -, h₂, h₅⟩⟩ | ⟨c', -, hptr, -⟩
      · exact absurd rfl (hne r)
      · exact ⟨h₂, h₅⟩
      · cases hptr
    simp only [Jhc.Lib.Under, hbefore]
    rw [hppri]
    split
    · rw [hcmp.1]
      exact cmp_gc
    · rw [hcmp.2]
      exact cmp_no_gc
  constructor
  · rintro hall ⟨i, j, c, r, hj, hi, hclash⟩
    obtain ⟨t, ht, hc⟩ := Option.bind_eq_some_iff.1 hi
    have hti : ts'[i]? = some (.tb c false) := by
      refine (getElem?_convertType h).2 ⟨t, ht, ?_⟩
      cases t with
      | tyPrim p =>
        have hp : tyToC .hintUnsigned p = some c := hc
        simp [convertType, opTyToC, hp]
      | _ => cases hc
    have hlen : j < ts'.length := by
      rw [← (mapM_convertType h).length_eq]
      exact (List.getElem?_eq_some_iff.1 hj).1
    obtain ⟨s, hs, hu⟩ := (getElem?_convertType h).1 (List.getElem?_eq_getElem hlen)
    rw [hj] at hs
    cases hs
    have hptr := hall (.slot i, .tb c false) (mem_slotFields.2 ⟨i, _, hti, rfl⟩) (.slot j, ts'[j])
      (mem_slotFields.2 ⟨j, _, List.getElem?_eq_getElem hlen, rfl⟩)
      ((hpair i j c r t _ ht hc hj hu).2 hclash) (isPtr_convertType hu)
    cases hptr
  · intro hnot x hx y hy hunder hyptr
    obtain ⟨i, t, hti, rfl⟩ := mem_slotFields.1 hx
    obtain ⟨j, u, huj, rfl⟩ := mem_slotFields.1 hy
    obtain ⟨s, hs, hst⟩ := (getElem?_convertType h).1 hti
    obtain ⟨s', hs', hsu⟩ := (getElem?_convertType h).1 huj
    rcases convertType_cases hst with ⟨-, hptr, -⟩ | ⟨c, hc, hptr, rfl⟩
    · exact (isPtr_convertType hst).trans hptr
    · exfalso
      rcases convertType_cases hsu with ⟨-, -, ⟨hgc, h₂, h₅, -⟩ | ⟨r, rfl, h₂, h₅⟩⟩ | ⟨c', -, hptr', rfl⟩
      · -- a node comes before everything else
        have hone : cmp ppri u = 1 := by
          rw [hppri]
          split
          · exact h₂
          · exact h₅
        have htwo : 2 ≤ cmp ppri (.tb c false) := by
          have hp : 2 ≤ ppri := by
            rw [hppri]
            split <;> omega
          simp only [cmp]
          split_ifs <;> omega
        rcases hunder with hlt | ⟨heq, -⟩
        · simp only [hone] at hlt
          omega
        · simp only [hone] at heq
          omega
      · refine hnot ⟨i, j, c, r, hs', ?_, (hpair i j c r s u hs hc hs' hsu).1 hunder⟩
        rw [hs]
        exact hc
      · cases hyptr

end

/-! ### The registered pointers against the emitted structure -/

/-- The constructors with a representation of their own have one slot. -/
def SpecialSlots (tyenv : TyEnv) : Prop :=
  ∀ k ∈ [cChar, cWord, cInt], ∀ t, tyenv.lookup k = some t → t.tySlots.length = 1

section
variable {fullInt : Bool} {tyenv : TyEnv} {t : Tag} {tyty : TyTy} {as : List Grin.Val} {n : ℕ} {s : Structure}

/-- The word of a field is the tag or holds a pointer. -/
def Traced (slots : List Grin.Ty) : Field → Prop
  | .what => True
  | .head => True
  | .slot i => ∃ u, slots[i]? = some u ∧ isPtr u = true

/-- A node in memory that is not suspended has a tag word when its constructor has no
representation of its own. -/
theorem rep_of_newNode (hspecial : SpecialSlots tyenv) (hty : findTyTy tyenv t = some tyty)
    (has : as.map Grin.Val.getType = tyty.tySlots.map some) (hn : newNode fullInt tyenv t as = some n)
    (hsf : tagIsSuspFunction t = false) :
    tyty.tySlots ≠ [] ∧ (cpr fullInt tyenv t = some .tyRepUntagged ∨
      cpr fullInt tyenv t = none ∧ tyty.tySiblings ≠ some [t]) := by
  have hlen : as.length = tyty.tySlots.length := by simpa using congrArg List.length has
  have hbasic : basicNode fullInt tyenv t as = none := by
    unfold newNode at hn
    split at hn
    · cases hn
    · assumption
  have hslots : tyty.tySlots ≠ [] := by
    intro hnil
    have hnil' : as = [] := List.length_eq_zero_iff.1 (by rw [hlen, hnil]; rfl)
    simp [basicNode, hsf, hnil'] at hbasic
  -- with one slot, a raw value would have needed no memory
  have hraw : ∀ b, tyty.tySlots.length = 1 → cpr fullInt tyenv t ≠ some (.tyRepRawVal b) := by
    intro b hone heq
    obtain ⟨v, hv⟩ := List.length_eq_one_iff.1 (hlen.trans hone)
    simp [basicNode, hsf, hv, heq] at hbasic
  refine ⟨hslots, ?_⟩
  cases hlook : tyenv.lookup t with
  | none =>
    refine .inr ⟨by simp [cpr, hlook], fun hsib => ?_⟩
    unfold findTyTy at hty
    rw [hlook] at hty
    simp only at hty
    split at hty
    · split at hty
      · obtain ⟨u, -, rfl⟩ := Option.map_eq_some_iff.1 hty
        cases hsib
      · cases hty
    · split at hty
      · cases hty
        cases hsib
      · cases hty
  | some u =>
    have hu : u = tyty := by
      unfold findTyTy at hty
      rw [hlook] at hty
      exact Option.some.inj hty
    subst hu
    have hcpr : cpr fullInt tyenv t = tyRep fullInt tyenv t u := by simp [cpr, hlook]
    have hone : t ∈ [cChar, cWord, cInt] → u.tySlots.length = 1 := fun hmem => hspecial t hmem u hlook
    rw [hcpr] at hraw ⊢
    unfold tyRep at hraw ⊢
    split_ifs at hraw ⊢ with h₁ h₂ h₃ h₄ h₅
    · exact absurd rfl (hraw false (hone (by rw [h₁]; exact List.mem_cons_self)))
    · exact absurd rfl (hraw false (hone (by rw [h₂.2]; exact List.mem_cons_of_mem _ List.mem_cons_self)))
    · exact absurd rfl (hraw true (hone (by rw [h₃.2]; simp)))
    · refine absurd rfl (hraw false ?_)
      unfold rawSlot at h₄
      split at h₄
      · next heq _ => simp [heq]
      · cases h₄
    · cases hsib : u.tySiblings with
      | none => exact .inr ⟨rfl, by simp⟩
      | some xs =>
        by_cases hall : (xs.filter (· ≠ t)).all (triv tyenv) = true
        · exact .inl (if_pos hall)
        · refine .inr ⟨if_neg hall, fun heq => hall ?_⟩
          cases heq
          simp

/-- The fields before the slots: the tag word, the code pointer or nothing. -/
theorem declStruct_eq (hspecial : SpecialSlots tyenv) (hty : findTyTy tyenv t = some tyty)
    (has : as.map Grin.Val.getType = tyty.tySlots.map some) (hn : newNode fullInt tyenv t as = some n)
    (hs : declareStruct fullInt tyenv t = some s) :
    ∃ ts' front ppri, tyty.tySlots.mapM convertType = some ts' ∧
      declStruct s = front ++ (rsort ppri (slotFields ts')).map Prod.fst ∧
      (ppri = if tagIsSuspFunction t = true ∨ .tyNode ∈ tyty.tySlots ∨ .tyINode ∈ tyty.tySlots then 2 else 5) ∧
      ((tagIsSuspFunction t = true ∧ front = [.head]) ∨
        (tagIsSuspFunction t = false ∧ cpr fullInt tyenv t = none ∧ front = [.what]) ∨
        (tagIsSuspFunction t = false ∧ cpr fullInt tyenv t ≠ none ∧ front = [])) := by
  simp only [declareStruct, hty, Option.bind_eq_bind, Option.bind_some, Option.bind_eq_some_iff,
    Option.some.injEq] at hs
  obtain ⟨ts', hts', rfl⟩ := hs
  have hgc := numGC_slotFields hts'
  refine ⟨ts', ?_⟩
  cases hsf : tagIsSuspFunction t with
  | true =>
    refine ⟨[.head], 2, hts', ?_, by simp, .inl ⟨rfl, rfl⟩⟩
    have hnum : numGC ((Field.head, fptr_t) :: slotFields ts') ≠ 0 := by
      simp [numGC, fptr_t, CType.isGC]
    simp [declStruct, hsf, hnum]
  | false =>
    obtain ⟨hslots, hrep⟩ := rep_of_newNode hspecial hty has hn hsf
    have hrsort : ∀ ppri, (match slotFields ts' with
        | [] => []
        | t :: ts => rsort ppri (t :: ts)) = rsort ppri (slotFields ts') := by
      intro ppri
      cases slotFields ts' <;> rfl
    refine ⟨if cpr fullInt tyenv t = none then [.what] else [],
      if numGC (slotFields ts') ≠ 0 then 2 else 5, hts', ?_, ?_, ?_⟩
    · rcases hrep with hun | ⟨hnone, hsib⟩
      · simp [declStruct, hsf, hslots, hun, hrsort]
      · simp [declStruct, hsf, hslots, hnone, hsib, hrsort]
    · simp only [hgc, Bool.false_eq_true, false_or]
    · rcases hrep with hun | ⟨hnone, -⟩
      · exact .inr (.inr ⟨rfl, by simp [hun], by simp [hun]⟩)
      · exact .inr (.inl ⟨rfl, hnone, by simp [hnone]⟩)

/-- With as many words as there are pointers, the words are those of the pointers when
these come first among the slots. -/
theorem exact_of_count {ts' : List CType} {ppri : ℕ} {fp : List (Field × CType)}
    (hts' : tyty.tySlots.mapM convertType = some ts')
    (hfp : ∀ x ∈ fp, x.2.isPtr = true ∧ Traced tyty.tySlots x.1 ∧ ∀ i, x.1 ≠ .slot i)
    (hnd : (fp.map Prod.fst).Nodup) :
    (∀ f ∈ (fp ++ rsort ppri (slotFields ts')).map Prod.fst,
        f ∈ ((fp ++ rsort ppri (slotFields ts')).map Prod.fst).take
          ((fp ++ rsort ppri (slotFields ts')).countP fun x => x.2.isPtr) ↔ Traced tyty.tySlots f) ↔
      (rsort ppri (slotFields ts')).Pairwise fun x y => y.2.isPtr = true → x.2.isPtr = true := by
  have hperm : (rsort ppri (slotFields ts')).Perm (slotFields ts') := Jhc.Lib.sortUnder_perm
  have hnames : ((fp ++ rsort ppri (slotFields ts')).map Prod.fst).Nodup := by
    rw [List.map_append, List.nodup_append]
    refine ⟨hnd, (hperm.map Prod.fst).nodup_iff.2 slotFields_nodup, fun f hf g hg heq => ?_⟩
    obtain ⟨x, hx, rfl⟩ := List.mem_map.1 hf
    obtain ⟨y, hy, rfl⟩ := List.mem_map.1 hg
    obtain ⟨i, u, -, rfl⟩ := mem_slotFields.1 (hperm.mem_iff.1 hy)
    exact (hfp x hx).2.2 i heq
  have htraced : ∀ x ∈ fp ++ rsort ppri (slotFields ts'), x.2.isPtr = true ↔ Traced tyty.tySlots x.1 := by
    intro x hx
    cases List.mem_append.1 hx with
    | inl hmem => simp [hfp x hmem]
    | inr hmem =>
      obtain ⟨i, u, hu, rfl⟩ := mem_slotFields.1 (hperm.mem_iff.1 hmem)
      obtain ⟨s, hs, hsu⟩ := (getElem?_convertType hts').1 hu
      simp [Traced, hs, isPtr_convertType hsu]
  have hcount := Jhc.Lib.take_countP_iff (p := fun x : Field × CType => x.2.isPtr) (hnames.of_map Prod.fst)
  have hfront : (fp ++ rsort ppri (slotFields ts')).Pairwise (fun x y => y.2.isPtr = true → x.2.isPtr = true) ↔
      (rsort ppri (slotFields ts')).Pairwise fun x y => y.2.isPtr = true → x.2.isPtr = true := by
    rw [List.pairwise_append]
    constructor
    · exact fun h => h.2.1
    · intro h
      refine ⟨?_, h, fun x hx _ _ _ => (hfp x hx).1⟩
      exact List.Pairwise.imp_of_mem (fun hx _ _ _ => (hfp _ hx).1) (List.pairwise_of_forall fun _ _ => trivial)
  rw [← hfront, ← hcount]
  constructor
  · intro h x hx
    rw [htraced x hx, ← h x.1 (List.mem_map_of_mem hx), ← List.map_take]
    refine ⟨List.mem_map_of_mem, fun hmem => ?_⟩
    obtain ⟨y, hy, heq⟩ := List.mem_map.1 hmem
    rwa [List.inj_on_of_nodup_map hnames hx (List.mem_of_mem_take hy) heq.symm]
  · intro h f hf
    obtain ⟨x, hx, rfl⟩ := List.mem_map.1 hf
    rw [← htraced x hx, ← h x hx, ← List.map_take]
    refine ⟨fun hmem => ?_, List.mem_map_of_mem⟩
    obtain ⟨y, hy, heq⟩ := List.mem_map.1 hmem
    rwa [List.inj_on_of_nodup_map hnames hx (List.mem_of_mem_take hy) heq.symm]

/-- The words that the collector is told to trace are those of the pointer slots, after
the tag or the code pointer, exactly when no other slot is sorted before such a pointer.
The tag word is counted with the pointers only. -/
theorem registered_layout_iff (hspecial : SpecialSlots tyenv) (hty : findTyTy tyenv t = some tyty)
    (has : as.map Grin.Val.getType = tyty.tySlots.map some) (hs : declareStruct fullInt tyenv t = some s)
    (hn : newNode fullInt tyenv t as = some n) :
    ((∀ i < tyty.tySlots.length, .slot i ∈ (declStruct s).take n ↔ Traced tyty.tySlots (.slot i)) ↔
        ¬ Misordered (tagIsSuspFunction t) tyty.tySlots) ∧
      ((∀ f ∈ declStruct s, f ∈ (declStruct s).take n ↔ Traced tyty.tySlots f) ↔
        ¬ Misordered (tagIsSuspFunction t) tyty.tySlots ∧
          (tagIsSuspFunction t = true ∨ cpr fullInt tyenv t ≠ none ∨ ∃ u ∈ tyty.tySlots, isPtr u = true)) := by
  obtain ⟨ts', front, ppri, hts', hlayout, hppri, hfront⟩ := declStruct_eq hspecial hty has hn hs
  have hfirst := rsort_pointers_first hts' hppri
  have hptrs : as.countP (fun a => a.getType.any isPtr) = tyty.tySlots.countP isPtr := by
    have hmap : (as.map Grin.Val.getType).countP (fun o => o.any isPtr) =
        (tyty.tySlots.map some).countP (fun o => o.any isPtr) := by rw [has]
    rw [List.countP_map, List.countP_map] at hmap
    exact hmap
  have hcount : (rsort ppri (slotFields ts')).countP (fun x => x.2.isPtr) = tyty.tySlots.countP isPtr := by
    have hperm : (rsort ppri (slotFields ts')).Perm (slotFields ts') := Jhc.Lib.sortUnder_perm
    rw [hperm.countP_eq, countP_slotFields, countP_convertType hts']
  have hn' : n = if 0 < tyty.tySlots.countP isPtr + (if tagIsSuspFunction t then 1 else 0) ∧
      !tagIsSuspFunction t ∧ cpr fullInt tyenv t = none
      then tyty.tySlots.countP isPtr + (if tagIsSuspFunction t then 1 else 0) + 1
      else tyty.tySlots.countP isPtr + (if tagIsSuspFunction t then 1 else 0) := by
    unfold newNode at hn
    split at hn
    · cases hn
    · rw [← hptrs]
      exact (Option.some.inj hn).symm
  have hsome : (∃ u ∈ tyty.tySlots, isPtr u = true) ↔ 0 < tyty.tySlots.countP isPtr := List.countP_pos_iff.symm
  -- when every word that is counted is there, the two readings are the same
  have hcase : ∀ fp : List (Field × CType), front = fp.map Prod.fst →
      (∀ x ∈ fp, x.2.isPtr = true ∧ Traced tyty.tySlots x.1 ∧ ∀ i, x.1 ≠ .slot i) → (fp.map Prod.fst).Nodup →
      fp.length ≤ 1 → n = fp.length + tyty.tySlots.countP isPtr →
      ((∀ i < tyty.tySlots.length, .slot i ∈ (declStruct s).take n ↔ Traced tyty.tySlots (.slot i)) ↔
        ¬ Misordered (tagIsSuspFunction t) tyty.tySlots) ∧
      ((∀ f ∈ declStruct s, f ∈ (declStruct s).take n ↔ Traced tyty.tySlots f) ↔
        ¬ Misordered (tagIsSuspFunction t) tyty.tySlots) := by
    intro fp hfront hfp hnd hone hlen
    have hall : (fp ++ rsort ppri (slotFields ts')).countP (fun x => x.2.isPtr) = n := by
      rw [List.countP_append, hcount, List.countP_eq_length.2 fun x hx => (hfp x hx).1, hlen]
    have hexact := @exact_of_count _ _ ppri _ hts' hfp hnd
    rw [hall, List.map_append, ← hfront, ← hlayout, hfirst] at hexact
    refine ⟨?_, hexact⟩
    rw [← hexact]
    have hslot : ∀ i, Field.slot i ∈ declStruct s ↔ i < tyty.tySlots.length := by
      intro i
      have hperm : (rsort ppri (slotFields ts')).Perm (slotFields ts') := Jhc.Lib.sortUnder_perm
      rw [hlayout, List.mem_append, (hperm.map Prod.fst).mem_iff, (mapM_convertType hts').length_eq, hfront]
      constructor
      · rintro (hmem | hmem)
        · obtain ⟨x, hx, heq⟩ := List.mem_map.1 hmem
          exact absurd heq ((hfp x hx).2.2 i)
        · obtain ⟨x, hx, heq⟩ := List.mem_map.1 hmem
          obtain ⟨j, u, hu, rfl⟩ := mem_slotFields.1 hx
          cases heq
          exact (List.getElem?_eq_some_iff.1 hu).1
      · intro hi
        exact .inr (List.mem_map.2 ⟨_, mem_slotFields.2 ⟨i, _, List.getElem?_eq_getElem hi, rfl⟩, rfl⟩)
    constructor
    · intro h f hf
      rw [hlayout, List.mem_append] at hf
      rcases hf with hf | hf
      · -- the word in front is the first of at least one
        rw [hfront] at hf
        obtain ⟨x, hx, rfl⟩ := List.mem_map.1 hf
        refine iff_of_true ?_ (hfp x hx).2.1
        cases fp with
        | nil => cases hx
        | cons y ys =>
          have hys : ys = [] := List.length_eq_zero_iff.1 (by simp only [List.length_cons] at hone; omega)
          subst hys
          rw [List.mem_singleton.1 hx, hlayout, hfront, hlen, List.length_singleton, Nat.add_comm]
          exact List.mem_cons_self
      · obtain ⟨x, hx, rfl⟩ := List.mem_map.1 hf
        obtain ⟨i, u, hu, rfl⟩ := mem_slotFields.1 (Jhc.Lib.sortUnder_perm.mem_iff.1 hx)
        refine h i ((hslot i).1 ?_)
        rw [hlayout, List.mem_append]
        exact .inr hf
    · exact fun h i hi => h _ ((hslot i).2 hi)
  rcases hfront with ⟨hsf, hfront⟩ | ⟨hsf, hcpr, hfront⟩ | ⟨hsf, hcpr, hfront⟩
  · have h := hcase [(.head, fptr_t)] hfront (by simp [CType.isPtr, fptr_t, Traced]) (by simp) (by simp)
      (by rw [hn']; simp [hsf]; omega)
    exact ⟨h.1, h.2.trans (by simp [hsf])⟩
  · by_cases hzero : 0 < tyty.tySlots.countP isPtr
    · have h := hcase [(.what, .tPtr sptr_t)] hfront (by simp [CType.isPtr, Traced]) (by simp) (by simp)
        (by rw [hn', if_pos ⟨by omega, by rw [hsf]; rfl, hcpr⟩, hsf, if_neg Bool.false_ne_true, List.length_singleton]
            omega)
      exact ⟨h.1, h.2.trans (by simp [hsome.2 hzero])⟩
    · -- no pointers: nothing is traced, the tag word neither
      have hnone : ¬ ∃ u ∈ tyty.tySlots, isPtr u = true := fun h => hzero (hsome.1 h)
      have hn0 : n = 0 := by
        rw [hn', hsf, if_neg Bool.false_ne_true, if_neg fun h => hzero h.1]
        omega
      have hordered : ¬ Misordered (tagIsSuspFunction t) tyty.tySlots := by
        rintro ⟨i, j, c, r, hj, -⟩
        exact hnone ⟨_, List.mem_of_getElem? hj, rfl⟩
      refine ⟨iff_of_true (fun i _ => ?_) hordered, iff_of_false (fun h => ?_) ?_⟩
      · rw [hn0, List.take_zero]
        refine iff_of_false (by simp) ?_
        rintro ⟨u, hu, hptr⟩
        exact hnone ⟨u, List.mem_of_getElem? hu, hptr⟩
      · have hwhat := (h .what (by rw [hlayout, hfront]; exact List.mem_cons_self)).2 trivial
        rw [hn0] at hwhat
        cases hwhat
      · rintro ⟨-, h | h | h⟩
        · rw [hsf] at h
          cases h
        · exact h hcpr
        · exact hnone h
  · have h := hcase [] hfront (by simp) (by simp) (by simp) (by rw [hn']; simp [hsf, hcpr])
    exact ⟨h.1, h.2.trans (by simp [hcpr])⟩

end

/-! ### A word before an array -/

/-- A constructor with a machine word and an array. -/
def wordAndArray : TyEnv :=
  [("CMain.T", ⟨[.tyPrim (.tyBits (.bitsArch .bitsPtr) .hintNone), .tyPtr .tyINode], [.tyNode], .tyNotThunk,
    some ["CMain.T"]⟩)]

def wordAndArrayArgs : List Grin.Val :=
  [.var 1 (.tyPrim (.tyBits (.bitsArch .bitsPtr) .hintNone)), .var 2 (.tyPtr .tyINode)]

theorem word_before_array :
    (declareStruct false wordAndArray "CMain.T").map declStruct = some [.slot 0, .slot 1] ∧
      newNode false wordAndArray "CMain.T" wordAndArrayArgs = some 1 ∧
      ¬ Traced [.tyPrim (.tyBits (.bitsArch .bitsPtr) .hintNone), .tyPtr .tyINode] (.slot 0) ∧
      Traced [.tyPrim (.tyBits (.bitsArch .bitsPtr) .hintNone), .tyPtr .tyINode] (.slot 1) := by
  refine ⟨by decide +kernel, by decide +kernel, ?_, ⟨_, rfl, rfl⟩⟩
  rintro ⟨u, hu, hptr⟩
  cases hu
  cases hptr

theorem word_before_array_layout :
    ((∀ i < 2, .slot i ∈ ([.slot 0, .slot 1] : List Field).take 1 ↔
        Traced [.tyPrim (.tyBits (.bitsArch .bitsPtr) .hintNone), .tyPtr .tyINode] (.slot i)) ↔
      ¬ Misordered false [.tyPrim (.tyBits (.bitsArch .bitsPtr) .hintNone), .tyPtr .tyINode]) :=
  (@registered_layout_iff false wordAndArray "CMain.T" _ wordAndArrayArgs 1
    ⟨[(.slot 0, .tb "uintptr_t" false), (.slot 1, .tPtr sptr_t)], false, false⟩
    (by simp [SpecialSlots, wordAndArray, cChar, cWord, cInt, List.lookup]) rfl rfl rfl (by decide +kernel)).1

end Jhc.C
