import Jhc.C.Rep
import Mathlib

/-!
# Dispatch on constructors (C/FromGrin2.hs:355-414, 777-882)

How a value of a data type is stored, and which alternative of a case the emitted code
takes for it.
-/

namespace Jhc.C
open Jhc.Grin (Atom Tag TyTy TyEnv Val tagIsSuspFunction cChar cWord cInt)

/-! ### Tags and stores (FromGrin2.hs:777-882) -/

section
variable (fullInt : Bool) (tyenv : TyEnv)

/-- The number that `tellTags` gives to a constructor, its place among the siblings. -/
def enum (sib : List Atom) (t : Tag) : ℕ := sib.idxOf t

/-- What is stored in the first word of a node: the code of a suspended call, or a tag. -/
inductive TagStore where
  | head (t : Tag)
  | memTag (t : Tag)

def tagAssign (t : Tag) : Option TagStore :=
  if tagIsSuspFunction t then some (.head t)
  else match cpr fullInt tyenv t with
    | some _ => none
    | none => some (.memTag t)

/-- The values that `newNode` makes for a constructor and its arguments: the word, and the
first word of memory where it is a pointer. Without a tag that word is part of the
arguments. -/
inductive NewNode {w : ℕ} (sib : List Atom) (t : Tag) (as : List Val) (mem : BitVec w → BitVec w) (x : BitVec w) : Prop
  | setRawTag (k : Tag) (hbasic : basicNode fullInt tyenv t as = some (.setRawTag k))
      (hx : x = SET_RAW_TAG (BitVec.ofNat w (enum sib k)))
  | rawSet (signed : Bool) (v : Val) (n : BitVec w) (hbasic : basicNode fullInt tyenv t as = some (.rawSet signed v))
      (hx : x = if signed then RAW_SET_F n else RAW_SET_UF n)
  | memory (hbasic : basicNode fullInt tyenv t as = none) (hx : x &&& 3#w = 0#w)
      (hmem : ∀ k, tagAssign fullInt tyenv t = some (.memTag k) →
        FETCH_MEM_TAG mem x = SET_MEM_TAG (BitVec.ofNat w (enum sib k)))

end

/-! ### convertBody of a case (FromGrin2.hs:355-414) -/

/-- The emitted statement. -/
inductive Dispatch (β : Type) where
  | cifRaw (t : Tag) (thn els : β)
  | cifTag (t : Tag) (thn els : β)
  | switch (ls : List (Option Tag × β))

/-- An alternative for a constructor, with the patterns of its fields. -/
structure NodeAlt (β : Type) where
  tag : Tag
  fps : List Val
  body : β

section
variable {β : Type}

def switchCases (ls : List (NodeAlt β)) (d : Option β) : List (Option Tag × β) :=
  ls.map (fun a => (some a.tag, a.body)) ++ d.toList.map fun e => (none, e)

/-- The alternatives are those for constructors and then one for all others, if any. -/
def convertCase : List (NodeAlt β) → Option β → Dispatch β
  -- the pattern without fields is tested first
  | [⟨_, _ :: _, e1⟩, ⟨t, [], e2⟩], none => .cifRaw t e2 e1
  | [⟨t, [], e1⟩, ⟨_, _, e2⟩], none => .cifRaw t e1 e2
  | [⟨t, _ :: _, e1⟩, ⟨_, _ :: _, e2⟩], none => .cifTag t e1 e2
  | [⟨t, [], e1⟩], some e2 => .cifRaw t e1 e2
  | [⟨t, _ :: _, e1⟩], some e2 => .cifTag t e1 e2
  | ls, d => .switch (switchCases ls d)

/-- The statement that is run; `none` where the code has fallen off. -/
def Dispatch.run {w : ℕ} (sib : List Atom) (mem : BitVec w → BitVec w) (scrut : BitVec w) : Dispatch β → Option β
  | .cifRaw t thn els => some (if SET_RAW_TAG (BitVec.ofNat w (enum sib t)) = scrut then thn else els)
  | .cifTag t thn els => some (if BitVec.ofNat w (enum sib t) = FETCH_TAG mem scrut then thn else els)
  | .switch ls =>
    ((ls.find? fun l => l.1.any fun t => BitVec.ofNat w (enum sib t) = FETCH_TAG mem scrut).or
      (ls.find? fun l => l.1.isNone)).map Prod.snd

/-- The alternative that is meant for a constructor. -/
def alternative (ls : List (NodeAlt β)) (d : Option β) (k : Tag) : Option β :=
  ((ls.find? fun a => a.tag = k).map NodeAlt.body).or d

end

/-! ### Data types -/

/-- The constructors of a data type know each other. -/
structure DataType (tyenv : TyEnv) (sib : List Atom) : Prop where
  nodup : sib.Nodup
  siblings : ∀ k ∈ sib, ∃ t, tyenv.lookup k = some t ∧ t.tySiblings = some sib
  constructors : ∀ k ∈ sib, tagIsSuspFunction k = false

/-- The types that have a representation by their name have one constructor with one slot. -/
def SpecialTypes (tyenv : TyEnv) : Prop :=
  ∀ k ∈ [cChar, cWord, cInt], ∀ t, tyenv.lookup k = some t → t.tySlots.length = 1 ∧ t.tySiblings = some [k]

def slots (tyenv : TyEnv) (k : Tag) : List Grin.Ty := ((tyenv.lookup k).map TyTy.tySlots).getD []

/-- No tag is stored with the nodes of the constructor. -/
def Tagless (fullInt : Bool) (tyenv : TyEnv) (k : Tag) : Prop :=
  cpr fullInt tyenv k = some .tyRepUntagged ∨ ∃ signed, cpr fullInt tyenv k = some (.tyRepRawVal signed)

section
variable {fullInt : Bool} {tyenv : TyEnv} {sib : List Atom} {k : Tag}

/-- The four representations, with what they say of the constructors. -/
theorem cpr_cases (hspecial : SpecialTypes tyenv) (hdata : DataType tyenv sib) (hk : k ∈ sib) :
    (∃ signed, cpr fullInt tyenv k = some (.tyRepRawVal signed) ∧ (slots tyenv k).length = 1 ∧ sib = [k]) ∨
      (cpr fullInt tyenv k = some .tyRepRawTag ∧ slots tyenv k = []) ∨
      (cpr fullInt tyenv k = some .tyRepUntagged ∧ slots tyenv k ≠ [] ∧
        ∀ t ∈ sib, t ≠ k → slots tyenv t = []) ∨
      (cpr fullInt tyenv k = none ∧ slots tyenv k ≠ []) := by
  obtain ⟨t, hlook, hsib⟩ := hdata.siblings k hk
  have hslots : slots tyenv k = t.tySlots := by rw [slots, hlook]; rfl
  have hspec : k ∈ [cChar, cWord, cInt] → (slots tyenv k).length = 1 ∧ sib = [k] := by
    intro hmem
    obtain ⟨hlen, hs⟩ := hspecial k hmem t hlook
    rw [hsib] at hs
    exact ⟨by rw [hslots]; exact hlen, Option.some.inj hs⟩
  rw [cpr, hlook, Option.bind_some, tyRep]
  split_ifs with h₁ h₂ h₃ h₄ h₅
  · exact .inl ⟨false, rfl, hspec (by rw [h₁]; exact List.mem_cons_self)⟩
  · exact .inl ⟨false, rfl, hspec (by rw [h₂.2]; exact List.mem_cons_of_mem _ List.mem_cons_self)⟩
  · exact .inl ⟨true, rfl,
      hspec (by rw [h₃.2]; exact List.mem_cons_of_mem _ (List.mem_cons_of_mem _ List.mem_cons_self))⟩
  · unfold rawSlot at h₄
    split at h₄
    · next s k' hone hs =>
      rw [hsib] at hs
      simp only [Bool.and_eq_true, beq_iff_eq] at h₄
      exact .inl ⟨false, rfl, by rw [hslots, hone]; rfl, by rw [Option.some.inj hs, h₄.1]⟩
    · cases h₄
  · exact .inr (.inl ⟨rfl, hslots.trans h₅⟩)
  · rw [hslots, hsib]
    by_cases hall : (sib.filter (· ≠ k)).all (triv tyenv) = true
    · refine .inr (.inr (.inl ⟨if_pos hall, h₅, fun c hc hne => ?_⟩))
      have htriv := List.all_eq_true.1 hall c (List.mem_filter.2 ⟨hc, by simpa using hne⟩)
      unfold triv at htriv
      unfold slots
      split at htriv
      · next u hu =>
        rw [hu]
        exact List.isEmpty_iff.1 htriv
      · cases htriv
    · exact .inr (.inr (.inr ⟨if_neg hall, h₅⟩))

theorem rawVal_spec (hspecial : SpecialTypes tyenv) (hdata : DataType tyenv sib) (hk : k ∈ sib) {signed : Bool}
    (h : cpr fullInt tyenv k = some (.tyRepRawVal signed)) : (slots tyenv k).length = 1 ∧ sib = [k] := by
  rcases @cpr_cases fullInt _ _ _ hspecial hdata hk with ⟨b, -, hspec⟩ | ⟨hcpr, -⟩ | ⟨hcpr, -⟩ | ⟨hcpr, -⟩
  · exact hspec
  · cases h.symm.trans hcpr
  · cases h.symm.trans hcpr
  · cases h.symm.trans hcpr

/-- Besides a constructor without tag all constructors are without fields. -/
theorem tagless_spec (hspecial : SpecialTypes tyenv) (hdata : DataType tyenv sib) (hk : k ∈ sib)
    (h : Tagless fullInt tyenv k) : slots tyenv k ≠ [] ∧ ∀ t ∈ sib, t ≠ k → slots tyenv t = [] := by
  rcases @cpr_cases fullInt _ _ _ hspecial hdata hk with
    ⟨b, -, hlen, hsib⟩ | ⟨hcpr, -⟩ | ⟨-, hspec⟩ | ⟨hcpr, -⟩
  · refine ⟨fun hnil => ?_, fun t ht hne => ?_⟩
    · rw [hnil] at hlen
      cases hlen
    · rw [hsib, List.mem_singleton] at ht
      exact absurd ht hne
  · rcases h with h | ⟨b, h⟩ <;> cases h.symm.trans hcpr
  · exact hspec
  · rcases h with h | ⟨b, h⟩ <;> cases h.symm.trans hcpr

end

/-! ### Values -/

section
variable {fullInt : Bool} {tyenv : TyEnv} {sib : List Atom} {k : Tag} {as : List Val}
variable {w : ℕ} {mem : BitVec w → BitVec w} {x : BitVec w}

theorem newNode_spec (hspecial : SpecialTypes tyenv) (hdata : DataType tyenv sib) (hk : k ∈ sib) (hw : 2 ≤ w)
    (has : as.length = (slots tyenv k).length) (h : NewNode fullInt tyenv sib k as mem x) :
    (slots tyenv k = [] ∧ x = SET_RAW_TAG (BitVec.ofNat w (enum sib k))) ∨
      (slots tyenv k ≠ [] ∧ IS_PTR x = true ∧ mem x = SET_MEM_TAG (BitVec.ofNat w (enum sib k))) ∨
      (Tagless fullInt tyenv k ∧ (IS_PTR x = true ∨ sib = [k])) := by
  have hsusp := hdata.constructors k hk
  cases h with
  | setRawTag k' hbasic hx =>
    unfold basicNode at hbasic
    rw [hsusp] at hbasic
    simp only [Bool.false_eq_true, if_false] at hbasic
    split at hbasic
    · cases hbasic
      exact .inl ⟨List.length_eq_zero_iff.1 has.symm, hx⟩
    · split at hbasic <;> cases hbasic
    · cases hbasic
  | rawSet signed v n hbasic hx =>
    unfold basicNode at hbasic
    rw [hsusp] at hbasic
    simp only [Bool.false_eq_true, if_false] at hbasic
    split at hbasic
    · cases hbasic
    · split at hbasic
      · next hcpr => exact .inr (.inr ⟨.inr ⟨_, hcpr⟩, .inr (rawVal_spec hspecial hdata hk hcpr).2⟩)
      · cases hbasic
    · cases hbasic
  | memory hbasic hx hmem =>
    have hslots : slots tyenv k ≠ [] := by
      intro hnil
      rw [hnil, List.length_nil, List.length_eq_zero_iff] at has
      simp [basicNode, hsusp, has] at hbasic
    cases hcpr : cpr fullInt tyenv k with
    | none => exact .inr (.inl ⟨hslots, isPtr_aligned hx, hmem k (by simp [tagAssign, hsusp, hcpr])⟩)
    | some rep =>
      cases rep with
      | tyRepRawTag =>
        exfalso
        rcases @cpr_cases fullInt _ _ _ hspecial hdata hk with
          ⟨b, h, -⟩ | ⟨-, h⟩ | ⟨h, -⟩ | ⟨h, -⟩
        · cases h.symm.trans hcpr
        · exact hslots h
        · cases h.symm.trans hcpr
        · cases h.symm.trans hcpr
      | tyRepUntagged => exact .inr (.inr ⟨.inl hcpr, .inl (isPtr_aligned hx)⟩)
      | tyRepRawVal signed => exact .inr (.inr ⟨.inr ⟨signed, hcpr⟩, .inl (isPtr_aligned hx)⟩)

/-- Of a constructor without tag there are values with any number where a tag is fetched. -/
theorem tagless_any (hspecial : SpecialTypes tyenv) (hdata : DataType tyenv sib) (hk : k ∈ sib)
    (h : Tagless fullInt tyenv k) (hw : 18 ≤ w) {n : ℕ} (hn : n < 2 ^ (w - 16)) :
    ∃ (as : List Val) (mem : BitVec w → BitVec w) (x : BitVec w), as.length = (slots tyenv k).length ∧
      NewNode fullInt tyenv sib k as mem x ∧ FETCH_TAG mem x = BitVec.ofNat w n := by
  have hsusp := hdata.constructors k hk
  rcases h with h | ⟨signed, h⟩
  · have hslots := (tagless_spec hspecial hdata hk (.inl h)).1
    refine ⟨List.replicate (slots tyenv k).length .unit, fun _ => RAW_SET_16 (BitVec.ofNat w n), 0#w,
      List.length_replicate, .memory ?_ (by simp) (by simp [tagAssign, hsusp, h]), ?_⟩
    · cases hlen : (slots tyenv k).length with
      | zero => exact absurd (List.length_eq_zero_iff.1 hlen) hslots
      | succ m => cases m <;> simp [basicNode, hsusp, h, List.replicate_succ]
    · rw [FETCH_TAG, isPtr_aligned (by simp), if_pos rfl, FETCH_MEM_TAG, get_set_16 hw hn]
  · have hlen := (rawVal_spec hspecial hdata hk h).1
    refine ⟨[.unit], fun _ => 0#w, RAW_SET_UF (BitVec.ofNat w (n * 2 ^ 14)), hlen.symm,
      .rawSet signed .unit (BitVec.ofNat w (n * 2 ^ 14)) (by simp [basicNode, hsusp, h]) ?_, ?_⟩
    · cases signed <;> rfl
    · rw [FETCH_TAG, show IS_PTR (RAW_SET_UF (BitVec.ofNat w (n * 2 ^ 14))) = false from isPtr_value (by omega) _,
        if_neg Bool.false_ne_true, raw_set_uf_16, get_set_16 hw hn]

end

/-! ### The tests -/

/-- The alternatives of a case over the data type. -/
structure Alternatives {β : Type} (tyenv : TyEnv) (sib : List Atom) (ls : List (NodeAlt β)) (d : Option β) : Prop where
  nodup : (ls.map NodeAlt.tag).Nodup
  mem : ∀ a ∈ ls, a.tag ∈ sib
  fields : ∀ a ∈ ls, a.fps.length = (slots tyenv a.tag).length
  bodies : (ls.map NodeAlt.body ++ d.toList).Nodup

/-- One of two alternatives is for a constructor without fields. -/
def NullTest {β : Type} (ls : List (NodeAlt β)) (d : Option β) : Prop :=
  ls.length + d.toList.length = 2 ∧ ∃ a ∈ ls, a.fps = []

section
variable {β : Type} {tyenv : TyEnv} {sib : List Atom} {ls : List (NodeAlt β)} {d : Option β} {k : Tag}

theorem alternative_mem (halts : Alternatives tyenv sib ls d) {a : NodeAlt β} (ha : a ∈ ls) :
    alternative ls d a.tag = some a.body := by
  have hfind : ls.find? (fun b => b.tag = a.tag) = some a := by
    cases hf : ls.find? (fun b => b.tag = a.tag) with
    | none =>
      have hne := List.find?_eq_none.1 hf a ha
      simp at hne
    | some b =>
      have htag : b.tag = a.tag := by simpa using List.find?_some hf
      rw [List.inj_on_of_nodup_map halts.nodup (List.mem_of_find?_eq_some hf) ha htag]
  rw [alternative, hfind]
  rfl

theorem alternative_not_mem (h : ∀ a ∈ ls, a.tag ≠ k) : alternative ls d k = d := by
  rw [alternative, List.find?_eq_none.2 (by simpa using h)]
  rfl

/-- With two alternatives, the emitted code is a test for the constructor of one of them. -/
theorem convertCase_two (h : ls.length + d.toList.length = 2) (hls : ls ≠ []) :
    ∃ a e₂, a ∈ ls ∧ (∀ k, k ≠ a.tag → (alternative ls d k).isSome → alternative ls d k = some e₂) ∧
      (ls.map NodeAlt.body ++ d.toList).Perm [a.body, e₂] ∧
      ((a.fps = [] ∧ convertCase ls d = .cifRaw a.tag a.body e₂) ∨
        ((∀ b ∈ ls, b.fps ≠ []) ∧ convertCase ls d = .cifTag a.tag a.body e₂)) := by
  cases ls with
  | nil => exact absurd rfl hls
  | cons a ls =>
    cases ls with
    | nil =>
      cases d with
      | none => simp at h
      | some e =>
        refine ⟨a, e, List.mem_singleton.2 rfl, fun k hk _ => ?_, .refl _, ?_⟩
        · exact alternative_not_mem (by simpa using hk.symm)
        · obtain ⟨t, fps, e₁⟩ := a
          cases fps with
          | nil => exact .inl ⟨rfl, rfl⟩
          | cons v vs => exact .inr ⟨by simp, rfl⟩
    | cons b ls =>
      cases ls with
      | cons c ls =>
        simp only [List.length_cons] at h
        omega
      | nil =>
        cases d with
        | some e => simp at h
        | none =>
          -- the other alternative is the one for a covered constructor
          have hother : ∀ k, (alternative [a, b] none k).isSome →
              (k ≠ a.tag → alternative [a, b] none k = some b.body) ∧
                (k ≠ b.tag → alternative [a, b] none k = some a.body) := by
            intro k hsome
            by_cases hka : a.tag = k <;> by_cases hkb : b.tag = k <;>
              simp [alternative, List.find?, hka, hkb] at hsome ⊢
          obtain ⟨t₁, fps₁, e₁⟩ := a
          obtain ⟨t₂, fps₂, e₂⟩ := b
          cases fps₁ with
          | nil => exact ⟨_, e₂, List.mem_cons_self, fun k hk hs => (hother k hs).1 hk, .refl _, .inl ⟨rfl, rfl⟩⟩
          | cons v₁ vs₁ =>
            cases fps₂ with
            | nil =>
              exact ⟨⟨t₂, [], e₂⟩, e₁, by simp, fun k hk hs => (hother k hs).2 hk, .swap _ _ _,
                .inl ⟨rfl, rfl⟩⟩
            | cons v₂ vs₂ =>
              exact ⟨⟨t₁, v₁ :: vs₁, e₁⟩, e₂, by simp, fun k hk hs => (hother k hs).1 hk, .refl _,
                .inr ⟨by simp, rfl⟩⟩

theorem convertCase_switch (h : ls.length + d.toList.length ≠ 2) :
    convertCase ls d = .switch (switchCases ls d) := by
  unfold convertCase
  split <;> simp at h ⊢

variable {w : ℕ} {mem : BitVec w → BitVec w} {x : BitVec w}

theorem run_switch :
    (Dispatch.switch (switchCases ls d)).run sib mem x =
      ((ls.find? fun a => BitVec.ofNat w (enum sib a.tag) = FETCH_TAG mem x).map NodeAlt.body).or d := by
  have hcase : (d.toList.map fun e => ((none : Option Tag), e)).find?
      (fun l => l.1.any fun t => BitVec.ofNat w (enum sib t) = FETCH_TAG mem x) = none := by
    cases d <;> simp
  have hdflt : (switchCases ls d).find? (fun l => l.1.isNone) = d.map fun e => (none, e) := by
    rw [switchCases, List.find?_append, List.find?_eq_none.2 (by simp), Option.none_or]
    cases d <;> simp
  have hmap : (ls.map fun a => (some a.tag, a.body)).find?
      (fun l => l.1.any fun t => BitVec.ofNat w (enum sib t) = FETCH_TAG mem x) =
      (ls.find? fun a => BitVec.ofNat w (enum sib a.tag) = FETCH_TAG mem x).map fun a => (some a.tag, a.body) :=
    List.find?_map
  rw [Dispatch.run, hdflt, switchCases, List.find?_append, hcase, Option.or_none, hmap]
  cases ls.find? fun a => BitVec.ofNat w (enum sib a.tag) = FETCH_TAG mem x with
  | none => cases d <;> rfl
  | some a => rfl

end

/-! ### Numbers of constructors -/

section
variable {w : ℕ} {sib : List Atom} {k t : Tag}

theorem enum_lt (hfits : sib.length ≤ 2 ^ (w - 16)) (hk : k ∈ sib) : enum sib k < 2 ^ (w - 16) :=
  Nat.lt_of_lt_of_le (List.idxOf_lt_length_of_mem hk) hfits

theorem ofNat_inj {n m : ℕ} (hn : n < 2 ^ (w - 16)) (hm : m < 2 ^ (w - 16)) :
    BitVec.ofNat w n = BitVec.ofNat w m ↔ n = m := by
  have hle : 2 ^ (w - 16) ≤ 2 ^ w := Nat.pow_le_pow_right (by decide) (by omega)
  constructor
  · intro h
    have hnat := congrArg BitVec.toNat h
    rwa [BitVec.toNat_ofNat, BitVec.toNat_ofNat, Nat.mod_eq_of_lt (by omega), Nat.mod_eq_of_lt (by omega)] at hnat
  · rintro rfl
    rfl

theorem enum_inj (hfits : sib.length ≤ 2 ^ (w - 16)) (hk : k ∈ sib) (ht : t ∈ sib) :
    BitVec.ofNat w (enum sib t) = BitVec.ofNat w (enum sib k) ↔ t = k := by
  rw [ofNat_inj (enum_lt hfits ht) (enum_lt hfits hk)]
  exact List.idxOf_inj ht

end

/-! ### The alternative that is taken -/

section
variable {β : Type} {fullInt : Bool} {tyenv : TyEnv} {sib : List Atom} {ls : List (NodeAlt β)} {d : Option β} {k : Tag}
variable {w : ℕ} {as : List Val} {mem : BitVec w → BitVec w} {x : BitVec w}

/-- A test for a constructor without fields is right for all values. -/
theorem cifRaw_iff (hspecial : SpecialTypes tyenv) (hdata : DataType tyenv sib) (hw : 18 ≤ w)
    (hfits : sib.length ≤ 2 ^ (w - 16)) (hk : k ∈ sib) {t : Tag} (ht : t ∈ sib) (hnull : slots tyenv t = [])
    (has : as.length = (slots tyenv k).length) (h : NewNode fullInt tyenv sib k as mem x) :
    SET_RAW_TAG (BitVec.ofNat w (enum sib t)) = x ↔ k = t := by
  have hraw : IS_PTR (SET_RAW_TAG (BitVec.ofNat w (enum sib t))) = false := isPtr_value (by omega) _
  have hptr : IS_PTR x = true → slots tyenv k ≠ [] → (SET_RAW_TAG (BitVec.ofNat w (enum sib t)) = x ↔ k = t) := by
    intro hx hslots
    constructor
    · intro heq
      rw [heq, hx] at hraw
      cases hraw
    · rintro rfl
      exact absurd hnull hslots
  rcases newNode_spec hspecial hdata hk (by omega) has h with ⟨-, rfl⟩ | ⟨hslots, hx, -⟩ | ⟨htag, hx⟩
  · constructor
    · intro heq
      have hget := congrArg RAW_GET_U16 heq
      unfold SET_RAW_TAG at hget
      rw [get_set_16 hw (enum_lt hfits ht), get_set_16 hw (enum_lt hfits hk), enum_inj hfits hk ht] at hget
      exact hget.symm
    · rintro rfl
      rfl
  · exact hptr hx hslots
  · have hslots := (tagless_spec hspecial hdata hk htag).1
    rcases hx with hx | hone
    · exact hptr hx hslots
    · rw [hone, List.mem_singleton] at ht
      subst ht
      exact absurd hnull hslots

theorem fetch_tag (hspecial : SpecialTypes tyenv) (hdata : DataType tyenv sib) (hw : 18 ≤ w)
    (hfits : sib.length ≤ 2 ^ (w - 16)) (hk : k ∈ sib) (htag : ¬ Tagless fullInt tyenv k)
    (has : as.length = (slots tyenv k).length) (h : NewNode fullInt tyenv sib k as mem x) :
    FETCH_TAG mem x = BitVec.ofNat w (enum sib k) := by
  rcases newNode_spec hspecial hdata hk (by omega) has h with ⟨-, rfl⟩ | ⟨-, hx, hmem⟩ | ⟨hless, -⟩
  · have hraw : IS_PTR (SET_RAW_TAG (BitVec.ofNat w (enum sib k))) = false := isPtr_value (by omega) _
    rw [FETCH_TAG, hraw, if_neg Bool.false_ne_true]
    exact get_set_16 hw (enum_lt hfits hk)
  · rw [FETCH_TAG, hx, if_pos rfl, FETCH_MEM_TAG, hmem]
    exact get_set_16 hw (enum_lt hfits hk)
  · exact absurd hless htag

theorem find_enum (hfits : sib.length ≤ 2 ^ (w - 16)) (hk : k ∈ sib) (hmem : ∀ a ∈ ls, a.tag ∈ sib) :
    (ls.find? fun a => BitVec.ofNat w (enum sib a.tag) = BitVec.ofNat w (enum sib k)) =
      ls.find? fun a => a.tag = k := by
  refine List.find?_congr fun a ha => ?_
  simp only [enum_inj hfits hk (hmem a ha)]

/-- The code is right for a value when its tag is fetched or no tag is needed. -/
theorem run_of_tested (hspecial : SpecialTypes tyenv) (hdata : DataType tyenv sib) (hw : 18 ≤ w)
    (hfits : sib.length ≤ 2 ^ (w - 16)) (halts : Alternatives tyenv sib ls d) (hk : k ∈ sib)
    (hsome : (alternative ls d k).isSome) (hcond : Tagless fullInt tyenv k → ls = [] ∨ NullTest ls d)
    (has : as.length = (slots tyenv k).length) (h : NewNode fullInt tyenv sib k as mem x) :
    (convertCase ls d).run sib mem x = alternative ls d k := by
  by_cases htwo : ls.length + d.toList.length = 2
  · have hls : ls ≠ [] := by
      rintro rfl
      cases d <;> simp at htwo
    obtain ⟨a, e₂, ha, hother, -, hform⟩ := convertCase_two htwo hls
    rcases hform with ⟨hfps, hconv⟩ | ⟨hfps, hconv⟩
    · have hnull : slots tyenv a.tag = [] := by
        rw [← List.length_eq_zero_iff, ← halts.fields a ha, hfps, List.length_nil]
      have hiff := cifRaw_iff hspecial hdata hw hfits hk (halts.mem a ha) hnull has h
      rw [hconv, Dispatch.run]
      by_cases hka : k = a.tag
      · rw [if_pos (hiff.2 hka), hka, alternative_mem halts ha]
      · rw [if_neg fun heq => hka (hiff.1 heq), hother k hka hsome]
    · have htag : ¬ Tagless fullInt tyenv k := by
        intro hless
        rcases hcond hless with hnil | ⟨-, b, hb, hnull⟩
        · exact hls hnil
        · exact hfps b hb hnull
      rw [hconv, Dispatch.run, fetch_tag hspecial hdata hw hfits hk htag has h]
      have hinj := enum_inj hfits hk (halts.mem a ha)
      by_cases hka : k = a.tag
      · rw [if_pos (hinj.2 hka.symm), hka, alternative_mem halts ha]
      · rw [if_neg fun heq => hka (hinj.1 heq).symm, hother k hka hsome]
  · rw [convertCase_switch htwo, run_switch]
    by_cases htag : Tagless fullInt tyenv k
    · rcases hcond htag with rfl | ⟨hnull, -⟩
      · rfl
      · exact absurd hnull htwo
    · rw [fetch_tag hspecial hdata hw hfits hk htag has h, find_enum hfits hk halts.mem]
      rfl

theorem exists_other_number (hw : 18 ≤ w) (n : ℕ) : ∃ m < 2 ^ (w - 16), m ≠ n := by
  have hfour : 4 ≤ 2 ^ (w - 16) := by
    calc 4 = 2 ^ 2 := by decide
      _ ≤ 2 ^ (w - 16) := Nat.pow_le_pow_right (by decide) (by omega)
  by_cases h : n = 0
  · exact ⟨1, by omega, by omega⟩
  · exact ⟨0, by omega, by omega⟩

/-- Where a tag is fetched from a value that has none, another alternative can be taken. -/
theorem tested_of_run (hspecial : SpecialTypes tyenv) (hdata : DataType tyenv sib) (hw : 18 ≤ w)
    (hfits : sib.length ≤ 2 ^ (w - 16)) (halts : Alternatives tyenv sib ls d) (hk : k ∈ sib)
    (htag : Tagless fullInt tyenv k) (hsome : (alternative ls d k).isSome)
    (hrun : ∀ (as : List Val) (mem : BitVec w → BitVec w) (x : BitVec w),
      as.length = (slots tyenv k).length → NewNode fullInt tyenv sib k as mem x →
      (convertCase ls d).run sib mem x = alternative ls d k) : ls = [] ∨ NullTest ls d := by
  by_contra hcon
  obtain ⟨hls, hnull⟩ := not_or.1 hcon
  have hbodies := halts.bodies
  by_cases htwo : ls.length + d.toList.length = 2
  · obtain ⟨a, e₂, ha, -, hperm, hform⟩ := convertCase_two htwo hls
    rcases hform with ⟨hfps, -⟩ | ⟨hfps, hconv⟩
    · exact hnull ⟨htwo, a, ha, hfps⟩
    · have hka : a.tag = k := by
        by_contra hne
        have hslots := (tagless_spec hspecial hdata hk htag).2 a.tag (halts.mem a ha) hne
        have hlen := halts.fields a ha
        rw [hslots, List.length_nil, List.length_eq_zero_iff] at hlen
        exact hfps a ha hlen
      obtain ⟨m, hm, hne⟩ := exists_other_number hw (enum sib k)
      obtain ⟨as, mem, x, has, hx, hfetch⟩ := tagless_any hspecial hdata hk htag hw hm
      have hres := hrun as mem x has hx
      have hfalse : ¬ BitVec.ofNat w (enum sib a.tag) = BitVec.ofNat w m := by
        rw [hka, ofNat_inj (enum_lt hfits hk) hm]
        exact hne.symm
      rw [hconv, Dispatch.run, hfetch, if_neg hfalse, ← hka, alternative_mem halts ha] at hres
      have hnodup := hperm.nodup_iff.1 hbodies
      rw [Option.some.inj hres] at hnodup
      simp at hnodup
  · -- the number of another constructor, or of none, is fetched
    have hresult : ∀ m < 2 ^ (w - 16),
        ((ls.find? fun a => BitVec.ofNat w (enum sib a.tag) = BitVec.ofNat w m).map NodeAlt.body).or d =
          alternative ls d k := by
      intro m hm
      obtain ⟨as, mem, x, has, hx, hfetch⟩ := tagless_any hspecial hdata hk htag hw hm
      have hres := hrun as mem x has hx
      rwa [convertCase_switch htwo, run_switch, hfetch] at hres
    have hdisj := List.disjoint_of_nodup_append hbodies
    by_cases hlisted : ∃ a ∈ ls, a.tag = k
    · obtain ⟨a, ha, rfl⟩ := hlisted
      obtain ⟨m, hm, hne⟩ := exists_other_number hw (enum sib a.tag)
      have hres := hresult m hm
      rw [alternative_mem halts ha] at hres
      cases hf : ls.find? fun a => BitVec.ofNat w (enum sib a.tag) = BitVec.ofNat w m with
      | none =>
        rw [hf] at hres
        simp only [Option.map_none, Option.none_or] at hres
        exact hdisj (List.mem_map_of_mem ha) (by rw [hres]; exact List.mem_singleton.2 rfl)
      | some b =>
        rw [hf] at hres
        have hb := List.mem_of_find?_eq_some hf
        have hnum : BitVec.ofNat w (enum sib b.tag) = BitVec.ofNat w m := by simpa using List.find?_some hf
        have hbody : b.body = a.body := by simpa using hres
        have hba := List.inj_on_of_nodup_map (List.Nodup.of_append_left hbodies) hb ha hbody
        rw [hba, ofNat_inj (enum_lt hfits hk) hm] at hnum
        exact hne hnum.symm
    · have hnot : ∀ a ∈ ls, a.tag ≠ k := fun a ha heq => hlisted ⟨a, ha, heq⟩
      rw [alternative_not_mem hnot] at hsome hresult
      obtain ⟨a, ha⟩ := List.exists_mem_of_ne_nil ls hls
      have hres := hresult (enum sib a.tag) (enum_lt hfits (halts.mem a ha))
      cases hf : ls.find? fun b => BitVec.ofNat w (enum sib b.tag) = BitVec.ofNat w (enum sib a.tag) with
      | none =>
        have hnone := List.find?_eq_none.1 hf a ha
        simp at hnone
      | some b =>
        rw [hf] at hres
        have hb := List.mem_of_find?_eq_some hf
        have hbody : some b.body = d := by simpa using hres
        exact hdisj (List.mem_map_of_mem hb) (by rw [← hbody]; exact List.mem_singleton.2 rfl)

/-- Every case over the data type takes the alternative of the constructor exactly when a
value without tag is met by a test for a constructor without fields only. -/
theorem dispatch_iff (hspecial : SpecialTypes tyenv) (hdata : DataType tyenv sib) (hw : 18 ≤ w)
    (hfits : sib.length ≤ 2 ^ (w - 16)) (halts : Alternatives tyenv sib ls d) :
    (∀ k ∈ sib, (alternative ls d k).isSome → ∀ (as : List Val) (mem : BitVec w → BitVec w) (x : BitVec w),
        as.length = (slots tyenv k).length → NewNode fullInt tyenv sib k as mem x →
        (convertCase ls d).run sib mem x = alternative ls d k) ↔
      ∀ k ∈ sib, Tagless fullInt tyenv k → (alternative ls d k).isSome → ls = [] ∨ NullTest ls d := by
  constructor
  · intro hrun k hk htag hsome
    exact tested_of_run hspecial hdata hw hfits halts hk htag hsome (hrun k hk hsome)
  · intro hcond k hk hsome as mem x has h
    exact run_of_tested hspecial hdata hw hfits halts hk hsome (fun htag => hcond k hk htag hsome) has h

end

/-! ### A switch over an untagged node -/

def threeNames : List Atom := ["CMain.A", "CMain.B", "CMain.C"]

/-- `data T = A | B | C T` -/
def threeEnv : TyEnv :=
  [("CMain.A", ⟨[], [.tyNode], .tyNotThunk, some threeNames⟩), ("CMain.B", ⟨[], [.tyNode], .tyNotThunk, some threeNames⟩),
    ("CMain.C", ⟨[.tyINode], [.tyNode], .tyNotThunk, some threeNames⟩)]

/-- The field of `C` is a pointer, and its bits are taken for the tag of `B`. -/
theorem switch_untagged :
    NewNode false threeEnv threeNames "CMain.C" [.var 1 .tyINode] (fun _ => 0x10000#64) 8#64 ∧
      (convertCase [⟨"CMain.A", [], 0⟩, ⟨"CMain.B", [], 1⟩, ⟨"CMain.C", [.var 2 .tyINode], 2⟩] none).run threeNames
        (fun _ => 0x10000#64) 8#64 = some 1 ∧
      alternative [⟨"CMain.A", [], 0⟩, ⟨"CMain.B", [], 1⟩, ⟨"CMain.C", [.var 2 .tyINode], 2⟩] none "CMain.C" = some 2 := by
  refine ⟨.memory (by decide +kernel) (by decide) ?_, by decide +kernel, by decide +kernel⟩
  intro k hk
  have hnone : tagAssign false threeEnv "CMain.C" = none := by rfl
  cases hnone.symm.trans hk

theorem null_test_three :
    (convertCase [⟨"CMain.A", [], 0⟩] (some 1)).run threeNames (fun _ => 0x10000#64) 8#64 =
      alternative [⟨"CMain.A", [], 0⟩] (some 1) "CMain.C" := by
  have hdata : DataType threeEnv threeNames := by
    refine ⟨by decide, fun k hk => ?_, fun k hk => ?_⟩
    · simp only [threeNames, List.mem_cons, List.not_mem_nil, or_false] at hk
      rcases hk with rfl | rfl | rfl <;> exact ⟨_, rfl, rfl⟩
    · simp only [threeNames, List.mem_cons, List.not_mem_nil, or_false] at hk
      rcases hk with rfl | rfl | rfl <;> rfl
  have halts : Alternatives threeEnv threeNames [⟨"CMain.A", [], 0⟩] (some 1) :=
    ⟨by decide, by decide, by decide, by decide⟩
  have hspecial : SpecialTypes threeEnv := by
    simp [SpecialTypes, threeEnv, cChar, cWord, cInt, List.lookup]
  have hright := (@dispatch_iff _ false _ _ _ _ 64 hspecial hdata (by decide) (by decide) halts).2
    fun _ _ _ _ => .inr ⟨rfl, _, List.mem_cons_self, rfl⟩
  refine hright "CMain.C" (by decide) rfl [.var 1 .tyINode] _ _ rfl (.memory (by decide +kernel) (by decide) ?_)
  intro k hk
  have hnone : tagAssign false threeEnv "CMain.C" = none := by rfl
  cases hnone.symm.trans hk

end Jhc.C
