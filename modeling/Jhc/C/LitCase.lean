import Mathlib
import Jhc.C.PrimOps
import Jhc.C.LocalCall

/-!
# Cases on literals in C (C/FromGrin2.hs:377-387, 415-429)

A case on a word becomes an `if` where it has two alternatives and a `switch` otherwise. The
literals are printed as decimal numbers; the scrutinee has an unsigned type. C compares them
after its conversions, which depend on the width of the word and on the size of the number.
-/

namespace Jhc.C.LitCase

/-! ### convertBody -/

inductive Pat where
  | lit (n : ℤ)
  | var (v : Var)
  deriving DecidableEq, Repr

/-- The statements: `if (i == scrut) thn else els`, with the literal that the other branch asserts,
and `switch`, with the variable that the scrutinee is assigned to in the default. -/
inductive Code (β : Type) where
  | cif (i : ℤ) (thn els : β) (asserted : Option ℤ)
  | switch' (cases : List (Option ℤ × Option Var × β))
  deriving DecidableEq, Repr

variable {β : Type} (freeVars : β → List Var)

def Pat.isVar : Pat → Bool
  | .var _ => true
  | .lit _ => false

/-- `da` of the last equation for `Case`. -/
def da : Pat × β → Option ℤ × Option Var × β
  | (.var v, e) => (none, if v = v0 then none else some v, e)
  | (.lit i, e) => (some i, none, e)

/-- The equations of `convertBody` for a case on literals, in their order; `none` where no
statement comes out: the first equation may exchange the alternatives for ever (the first
argument bounds how often), and a variable in front of another alternative has no literal to
be compared. -/
def convertBody : ℕ → List (Pat × β) → Option (Code β)
  | fuel, [v1, (.lit n, e2)] =>
    if n = 0 then
      match fuel with
      | 0 => none
      | fuel + 1 => convertBody fuel [(.lit n, e2), v1]
    else
      match v1 with
      | (.lit i, e1) => some (.cif i e1 e2 (some n))
      | (.var _, _) => none
  | _, [(p1, e1), (.var v, e2)] =>
    if v ∈ freeVars e2 then some (.switch' ([(p1, e1), (.var v, e2)].map da))
    else
      match p1 with
      | .lit i => some (.cif i e1 e2 none)
      | .var _ => none
  | _, ls => some (.switch' (ls.map da))

/-! ### Integers in C -/

structure IntType where
  signed : Bool
  width : ℕ
  deriving DecidableEq, Repr

def int : IntType := ⟨true, 32⟩

/-- What C leaves open: the width of `long`, the type of a decimal constant that `long long` does
not hold (none, the unsigned one, or a signed one of 128 bits), and whether `assert` checks. -/
structure CTarget where
  long : ℕ
  long_width : long = 32 ∨ long = 64
  huge : Option IntType
  huge_type : huge = none ∨ huge = some ⟨false, 64⟩ ∨ huge = some ⟨true, 128⟩
  asserts : Bool

def convert (t : IntType) (a : ℤ) : ℤ := readC t.signed t.width a

/-- The type of a decimal constant. -/
def constantType (g : CTarget) (k : ℤ) : Option IntType :=
  if k < 2 ^ 31 then some int
  else if k < 2 ^ (g.long - 1) then some ⟨true, g.long⟩
  else if k < 2 ^ 63 then some ⟨true, 64⟩
  else g.huge

/-- `number i`: a decimal constant, with a minus in front of a negative one. -/
def number (g : CTarget) (i : ℤ) : Option (IntType × ℤ) :=
  (constantType g |i|).map fun t => (t, if i < 0 then convert t (-|i|) else |i|)

/-- The integer promotions. -/
def promote (t : IntType) : IntType := if t.width < 32 then int else t

/-- The usual arithmetic conversions of promoted types. -/
def common (t u : IntType) : IntType :=
  if t.signed = u.signed then (if t.width < u.width then u else t)
  else if t.signed then (if t.width ≤ u.width then u else t)
  else (if u.width ≤ t.width then t else u)

def equal (a b : IntType × ℤ) : Bool :=
  let t := common (promote a.1) (promote b.1)
  convert t a.2 = convert t b.2

/-- `uint8_t`, `uint16_t`, `uint32_t`, `uint64_t` (tyToC of an unsigned type). -/
def uint (w : ℕ) : IntType := ⟨false, w⟩

variable (g : CTarget) (w : ℕ)

/-- The labels of a `switch` in the promoted type of what it looks at. -/
def label (i : ℤ) : Option ℤ := (number g i).map fun a => convert (promote (uint w)) a.2

/-- The statement that a `switch` comes to; `none` where C does not accept it (a constant without
a type, two equal labels) or no label fits. -/
def runSwitch (cases : List (Option ℤ × Option Var × β)) (x : ℤ) : Option β := do
  let labels ← (cases.filterMap Prod.fst).mapM (label g w)
  if labels.Nodup then
    let x := convert (promote (uint w)) x
    match cases.find? fun c => c.1.bind (label g w) = some x with
    | some c => some c.2.2
    | none => (cases.find? fun c => c.1 = none).map fun c => c.2.2
  else none

/-- The branch of a statement that is run for the scrutinee `x`. -/
def run (x : ℤ) : Code β → Option β
  | .cif i thn els asserted => do
    let a ← number g i
    let checked ← (if g.asserts then asserted else none).mapM (number g)
    if equal a (uint w, x) then some thn
    else if checked.any fun b => !equal b (uint w, x) then none
    else some els
  | .switch' cases => runSwitch g w cases x

/-! ### What the case means -/

/-- The first alternative whose literal is the word `x`, else the default. -/
def select (w : ℕ) (x : ℤ) (ls : List (Pat × β)) : Option β :=
  match ls.find? fun l => match l.1 with
      | .lit n => n % 2 ^ w = x
      | .var _ => false with
  | some l => some l.2
  | none => (ls.find? fun l => l.1.isVar).map Prod.snd

/-- The numbers that stand for a word of `w` bits, signed or unsigned. -/
def InRange (w : ℕ) (n : ℤ) : Prop := -2 ^ (w - 1) ≤ n ∧ n < 2 ^ w

/-! ### Comparing a literal -/

/-- A literal that the `==` of C finds equal to its word. -/
def Comparable (n : ℤ) : Prop :=
  (number g n).isSome ∧ (0 ≤ n ∨ 32 ≤ w ∧ (-2 ^ (w - 1) < n ∨ w = 64 ∧ g.huge = some ⟨false, 64⟩))

attribute [local grind =] convertBody

instance (n : ℤ) : Decidable (InRange w n) := inferInstanceAs (Decidable (_ ∧ _))

instance (n : ℤ) : Decidable (Comparable g w n) := inferInstanceAs (Decidable (_ ∧ _))

theorem convert_signed {w : ℕ} {a : ℤ} (h : -2 ^ w ≤ 2 * a) (h' : 2 * a < 2 ^ w) : convert ⟨true, w⟩ a = a := by
  show a.bmod (2 ^ w) = a
  have hcast : ((2 ^ w : ℕ) : ℤ) = 2 ^ w := by push_cast; rfl
  exact Int.bmod_eq_of_le_mul_two (by rw [hcast]; omega) (by rw [hcast]; omega)

theorem convert_unsigned {w : ℕ} {a : ℤ} : convert ⟨false, w⟩ a = a % 2 ^ w := rfl

variable {g w} {n x : ℤ}

theorem convert_word (hx : 0 ≤ x ∧ x < 2 ^ w) : convert (uint w) x = x := Int.emod_eq_of_lt hx.1 hx.2

/-- The type and the value of a literal, by its size. -/
theorem number_cases (hn : -2 ^ 63 ≤ n) (hn' : n < 2 ^ 64) :
    (∃ t, number g n = some (⟨true, t⟩, n) ∧ (t = 32 ∧ |n| < 2 ^ 31 ∨ t = 64 ∧ 2 ^ 31 ≤ |n| ∧ |n| < 2 ^ 63)) ∨
    (2 ^ 63 ≤ |n| ∧ number g n = g.huge.map fun t => (t, if n < 0 then convert t (-|n|) else |n|)) := by
  have habs : n < 0 ∧ -|n| = n ∨ 0 ≤ n ∧ |n| = n := by
    rcases Int.lt_or_le n 0 with h | h
    · exact .inl ⟨h, by rw [abs_of_neg h, neg_neg]⟩
    · exact .inr ⟨h, abs_of_nonneg h⟩
  have hvalue : ∀ t, |n| < 2 ^ (t - 1) → 0 < t → (if n < 0 then convert ⟨true, t⟩ (-|n|) else |n|) = n := by
    intro t ht hpos
    obtain ⟨k, rfl⟩ := Nat.exists_eq_succ_of_ne_zero hpos.ne'
    have hpow : (2 : ℤ) ^ (k + 1) = 2 * 2 ^ k := by ring
    simp only [Nat.succ_sub_one] at ht
    rcases habs with ⟨hneg, heq⟩ | ⟨hpos', heq⟩
    · rw [if_pos hneg, convert_signed (by rw [hpow]; omega) (by rw [hpow]; omega), heq]
    · rw [if_neg (by omega), heq]
  unfold number constantType
  by_cases h31 : |n| < 2 ^ 31
  · refine .inl ⟨32, ?_, .inl ⟨rfl, h31⟩⟩
    rw [if_pos h31]
    exact congrArg (fun a => some (int, a)) (hvalue 32 h31 (by decide))
  · rw [if_neg h31]
    by_cases h63 : |n| < 2 ^ 63
    · refine .inl ⟨64, ?_, .inr ⟨rfl, by omega, h63⟩⟩
      have hv := hvalue 64 h63 (by decide)
      rcases g.long_width with hl | hl
      · rw [hl, if_neg h31, if_pos h63]
        exact congrArg (fun a => some ((⟨true, 64⟩ : IntType), a)) hv
      · rw [hl, if_pos h63]
        exact congrArg (fun a => some ((⟨true, 64⟩ : IntType), a)) hv
    · refine .inr ⟨by omega, ?_⟩
      have hlong : ¬ |n| < 2 ^ (g.long - 1) := by
        rcases g.long_width with hl | hl <;> rw [hl] <;> omega
      rw [if_neg hlong, if_neg h63]

theorem equal_narrow (hw : w < 32) {t : ℕ} (ht : t = 32 ∨ t = 64) (hn : -2 ^ (t - 1) ≤ n ∧ n < 2 ^ (t - 1)) (hx : 0 ≤ x ∧ x < 2 ^ w) :
    equal (⟨true, t⟩, n) (uint w, x) = decide (n = x) := by
  have hx' : x < 2 ^ 31 := lt_of_lt_of_le hx.2 (pow_le_pow_right₀ (by decide) (by omega))
  have hp : promote (uint w) = int := if_pos hw
  have hc : common (promote ⟨true, t⟩) int = ⟨true, t⟩ := by
    rcases ht with rfl | rfl <;> rfl
  have hcn : convert ⟨true, t⟩ n = n := by
    rcases ht with rfl | rfl <;> exact convert_signed (by omega) (by omega)
  have hcx : convert ⟨true, t⟩ x = x := by
    rcases ht with rfl | rfl <;> exact convert_signed (by omega) (by omega)
  simp only [equal, hp, hc, hcn, hcx]

/-- An unsigned word at least as wide takes a signed number to its own type. -/
theorem equal_wide {t : ℕ} (ht : 32 ≤ t) (hw : t ≤ w) (hx : 0 ≤ x ∧ x < 2 ^ w) :
    equal (⟨true, t⟩, n) (uint w, x) = decide (n % 2 ^ w = x) := by
  have hp : promote (uint w) = uint w := if_neg (by show ¬ w < 32; omega)
  have hc : common (promote ⟨true, t⟩) (uint w) = uint w := by
    rw [promote, if_neg (by show ¬ t < 32; omega)]
    simp [common, uint, hw]
  simp only [equal, hp, hc, convert_word hx]
  rfl

/-- A wider signed type holds the word. -/
theorem equal_signed {t : ℕ} (ht : w < t) (hw : 32 ≤ w) (hn : -2 ^ t ≤ 2 * n ∧ 2 * n < 2 ^ t) (hx : 0 ≤ x ∧ x < 2 ^ w) :
    equal (⟨true, t⟩, n) (uint w, x) = decide (n = x) := by
  have hp : promote (uint w) = uint w := if_neg (by show ¬ w < 32; omega)
  have hc : common (promote ⟨true, t⟩) (uint w) = ⟨true, t⟩ := by
    rw [promote, if_neg (by show ¬ t < 32; omega)]
    simp [common, uint, Nat.not_le.2 ht]
  have hx' : 2 * x < 2 ^ t := by
    have hpow : (2 : ℤ) ^ (w + 1) ≤ 2 ^ t := pow_le_pow_right₀ (by decide) ht
    rw [pow_succ] at hpow
    omega
  have hpos : (0 : ℤ) < 2 ^ t := by positivity
  simp only [equal, hp, hc, convert_signed hn.1 hn.2, convert_signed (w := t) (a := x) (by omega) hx']

theorem inRange_wide (hw : w = 8 ∨ w = 16 ∨ w = 32 ∨ w = 64) (hn : InRange w n) : -2 ^ 63 ≤ n ∧ n < 2 ^ 64 := by
  obtain ⟨h1, h2⟩ := hn
  rcases hw with rfl | rfl | rfl | rfl <;> norm_num at h1 h2 ⊢ <;> omega

/-- When `==` finds a literal equal to a word. -/
theorem equal_iff (hw : w = 8 ∨ w = 16 ∨ w = 32 ∨ w = 64) (hn : InRange w n) (hx : 0 ≤ x ∧ x < 2 ^ w) {a : IntType × ℤ}
    (ha : number g n = some a) : equal a (uint w, x) = true ↔ Comparable g w n ∧ n % 2 ^ w = x := by
  have hsome : (number g n).isSome = true := by rw [ha]; rfl
  obtain ⟨hlow, hhigh⟩ := inRange_wide hw hn
  unfold Comparable
  rw [hsome]
  rcases number_cases (g := g) hlow hhigh with ⟨t, hnum, hsize⟩ | ⟨hsize, hnum⟩
  · rw [ha] at hnum
    obtain rfl := Option.some.inj hnum
    rcases hsize with ⟨rfl, hsize⟩ | ⟨rfl, hsize, hsize'⟩
    · rw [abs_lt] at hsize
      rcases hw with rfl | rfl | rfl | rfl
      · rw [equal_narrow (by decide) (.inl rfl) (by norm_num; omega) hx, decide_eq_true_eq]
        norm_num [InRange] at hn hx ⊢
        omega
      · rw [equal_narrow (by decide) (.inl rfl) (by norm_num; omega) hx, decide_eq_true_eq]
        norm_num [InRange] at hn hx ⊢
        omega
      · rw [equal_wide (by decide) (le_refl _) hx, decide_eq_true_eq]
        norm_num at hx hsize ⊢
        omega
      · rw [equal_wide (by decide) (by decide) hx, decide_eq_true_eq]
        norm_num at hx hsize ⊢
        omega
    · rw [abs_lt] at hsize'
      rw [le_abs] at hsize
      rcases hw with rfl | rfl | rfl | rfl
      · norm_num [InRange] at hn hsize
        omega
      · norm_num [InRange] at hn hsize
        omega
      · rw [equal_signed (by decide) (le_refl _) (by omega) hx, decide_eq_true_eq]
        norm_num [InRange] at hn hx hsize ⊢
        omega
      · rw [equal_wide (by decide) (le_refl _) hx, decide_eq_true_eq]
        norm_num at hx hsize' ⊢
        omega
  · rw [le_abs] at hsize
    obtain rfl : w = 64 := by
      rcases hw with rfl | rfl | rfl | rfl
      · norm_num [InRange] at hn hsize
        omega
      · norm_num [InRange] at hn hsize
        omega
      · norm_num [InRange] at hn hsize
        omega
      · rfl
    rw [ha] at hnum
    rcases g.huge_type with hhuge | hhuge | hhuge
    · rw [hhuge] at hnum
      cases hnum
    · rw [hhuge] at hnum ⊢
      obtain rfl := Option.some.inj hnum
      have hu : ∀ m : ℤ, equal (⟨false, 64⟩, m) (uint 64, x) = decide (m % 2 ^ 64 = x) := by
        intro m
        have hc : common (promote ⟨false, 64⟩) (promote (uint 64)) = uint 64 := rfl
        simp only [equal, hc, convert_word hx]
        rfl
      dsimp only
      rw [hu, decide_eq_true_eq]
      rcases Int.lt_or_le n 0 with hneg | hpos
      · rw [if_pos hneg, abs_of_neg hneg, neg_neg, convert_unsigned]
        norm_num
      · rw [if_neg (by omega), abs_of_nonneg hpos]
        norm_num [hpos]
    · rw [hhuge] at hnum ⊢
      obtain rfl := Option.some.inj hnum
      dsimp only
      rcases Int.lt_or_le n 0 with hneg | hpos
      · rw [if_pos hneg, abs_of_neg hneg, neg_neg, convert_signed (by norm_num; omega) (by norm_num; omega),
          equal_signed (by decide) (by decide) (by norm_num; omega) hx, decide_eq_true_eq]
        norm_num [InRange] at hn hx hsize ⊢
        omega
      · rw [if_neg (by omega), abs_of_nonneg hpos, equal_signed (by decide) (by decide) (by norm_num; omega) hx,
          decide_eq_true_eq]
        norm_num [InRange] at hn hx ⊢
        omega

/-! ### Labels -/

/-- The value of a label: a narrow word is promoted to `int`, where a negative literal stays negative. -/
def labelValue (w : ℕ) (n : ℤ) : ℤ := if w < 32 then n else n % 2 ^ w

theorem number_mod (hw : w = 32 ∨ w = 64) (hn : InRange w n) {a : IntType × ℤ} (ha : number g n = some a) :
    a.2 % 2 ^ w = n % 2 ^ w := by
  obtain ⟨hlow, hhigh⟩ := inRange_wide (.inr (.inr hw)) hn
  rcases number_cases (g := g) hlow hhigh with ⟨t, hnum, -⟩ | ⟨hsize, hnum⟩
  · rw [ha] at hnum
    obtain rfl := Option.some.inj hnum
    rfl
  · rw [le_abs] at hsize
    obtain rfl : w = 64 := by
      rcases hw with rfl | rfl
      · norm_num [InRange] at hn hsize
        omega
      · rfl
    rw [ha] at hnum
    rcases g.huge_type with hhuge | hhuge | hhuge
    · rw [hhuge] at hnum
      cases hnum
    · rw [hhuge] at hnum
      obtain rfl := Option.some.inj hnum
      dsimp only
      rcases Int.lt_or_le n 0 with hneg | hpos
      · rw [if_pos hneg, abs_of_neg hneg, neg_neg, convert_unsigned, Int.emod_emod_of_dvd _ (dvd_refl _)]
      · rw [if_neg (by omega), abs_of_nonneg hpos]
    · rw [hhuge] at hnum
      obtain rfl := Option.some.inj hnum
      dsimp only
      rcases Int.lt_or_le n 0 with hneg | hpos
      · rw [if_pos hneg, abs_of_neg hneg, neg_neg, convert_signed (by norm_num; omega) (by norm_num; omega)]
      · rw [if_neg (by omega), abs_of_nonneg hpos]

theorem label_eq (hw : w = 8 ∨ w = 16 ∨ w = 32 ∨ w = 64) (hn : InRange w n) :
    label g w n = if (number g n).isSome then some (labelValue w n) else none := by
  unfold label
  cases ha : number g n with
  | none => rfl
  | some a =>
    rw [Option.map_some, Option.isSome_some, if_pos rfl, Option.some_inj, labelValue]
    by_cases hnarrow : w < 32
    · have hsmall : -2 ^ 15 ≤ n ∧ n < 2 ^ 16 := by
        rcases hw with rfl | rfl | rfl | rfl <;> norm_num [InRange] at hn hnarrow <;> omega
      have habs : |n| < 2 ^ 31 := by
        rw [abs_lt]
        omega
      rcases number_cases (g := g) (n := n) (by omega) (by omega) with ⟨t, hnum, -⟩ | ⟨hsize, -⟩
      · rw [ha] at hnum
        obtain rfl := Option.some.inj hnum
        rw [if_pos hnarrow, promote, if_pos (by exact hnarrow)]
        exact convert_signed (by norm_num; omega) (by norm_num; omega)
      · omega
    · rw [if_neg hnarrow, promote, if_neg (by exact hnarrow)]
      exact number_mod (by omega) hn ha

/-! ### Alternatives -/

/-- The literals as alternatives, numbered from zero, with the default after the last. -/
def alternatives (ns : List ℤ) (d : Option Var) : List (Pat × ℕ) :=
  ns.zipIdx.map (fun p => (.lit p.1, p.2)) ++ d.toList.map fun v => (.var v, ns.length)

/-- The statement exists, and for every word that the case has an alternative for it runs that one. -/
def Correct (g : CTarget) (w : ℕ) (freeVars : ℕ → List Var) (ns : List ℤ) (d : Option Var) : Prop :=
  ∃ c, (∃ fuel, convertBody freeVars fuel (alternatives ns d) = some c) ∧
    ∀ x, 0 ≤ x → x < 2 ^ w → ∀ i, select w x (alternatives ns d) = some i → run g w x c = some i

/-- The first alternative with a literal that `P` holds of, else the default. -/
def firstWith (P : ℤ → Bool) (ns : List ℤ) (d : Option Var) : Option ℕ :=
  (ns.findIdx? P).or (d.map fun _ => ns.length)

theorem firstWith_zipIdx (P : ℤ → Bool) (ns : List ℤ) (d : Option Var) :
    firstWith P ns d = ((ns.zipIdx.find? fun p => P p.1).map Prod.snd).or (d.map fun _ => ns.length) := by
  rw [firstWith, List.findIdx?_eq_fst_find?_zipIdx]

theorem select_alternatives (ns : List ℤ) (d : Option Var) (x : ℤ) :
    select w x (alternatives ns d) = firstWith (fun n => n % 2 ^ w = x) ns d := by
  have hlit : ∀ l : List (ℤ × ℕ), (l.find? fun _ => false) = none := fun l => by simp
  cases d with
  | none =>
    simp only [select, alternatives, firstWith_zipIdx, Option.toList_none, List.map_nil, List.append_nil, List.find?_map,
      Function.comp_def, Pat.isVar, hlit, Option.map_none, Option.or_none]
    cases ns.zipIdx.find? fun p => p.1 % 2 ^ w = x <;> rfl
  | some v =>
    simp only [select, alternatives, firstWith_zipIdx, Option.toList_some, List.map_cons, List.map_nil, List.find?_append, List.find?_map,
      Function.comp_def, Pat.isVar, hlit, Option.map_none, Option.map_some]
    cases ns.zipIdx.find? fun p => p.1 % 2 ^ w = x <;> rfl

/-- Every literal has a type, and no two have the same label. -/
def Accepted (g : CTarget) (w : ℕ) (ns : List ℤ) : Prop :=
  (∀ n ∈ ns, (number g n).isSome) ∧ (ns.map (labelValue w)).Nodup

instance (g : CTarget) (w : ℕ) (ns : List ℤ) : Decidable (Accepted g w ns) := inferInstanceAs (Decidable (_ ∧ _))

theorem mapM_label (hw : w = 8 ∨ w = 16 ∨ w = 32 ∨ w = 64) {ns : List ℤ} (hns : ∀ n ∈ ns, InRange w n) :
    ns.mapM (label g w) = if ∀ n ∈ ns, (number g n).isSome then some (ns.map (labelValue w)) else none := by
  induction ns with
  | nil => simp
  | cons n ns ih =>
    rw [List.forall_mem_cons] at hns
    rw [List.mapM_cons, ih hns.2, label_eq hw hns.1]
    have hcons : (∀ m ∈ n :: ns, (number g m).isSome = true) ↔ _ := List.forall_mem_cons
    by_cases hn : (number g n).isSome = true
    · by_cases hrest : ∀ m ∈ ns, (number g m).isSome = true
      · rw [if_pos hn, if_pos hrest, if_pos (hcons.2 ⟨hn, hrest⟩)]
        rfl
      · rw [if_pos hn, if_neg hrest, if_neg fun h => hrest (hcons.1 h).2]
        rfl
    · rw [if_neg hn, if_neg fun h => hn (hcons.1 h).1]
      rfl

theorem runSwitch_alternatives (hw : w = 8 ∨ w = 16 ∨ w = 32 ∨ w = 64) {ns : List ℤ} (hns : ∀ n ∈ ns, InRange w n)
    (d : Option Var) (hx : 0 ≤ x ∧ x < 2 ^ w) :
    runSwitch g w ((alternatives ns d).map da) x =
      if Accepted g w ns then firstWith (fun n => labelValue w n = x) ns d else none := by
  have hlabels : ((alternatives ns d).map da).filterMap Prod.fst = ns := by
    have hlit : (ns.zipIdx.filterMap fun p => some p.1) = ns := by
      rw [List.filterMap_eq_map' , List.zipIdx_map_fst]
    cases d with
    | none => simpa [alternatives, da, List.filterMap_map, Function.comp_def] using hlit
    | some v => simpa [alternatives, da, List.filterMap_map, Function.comp_def] using hlit
  have hword : convert (promote (uint w)) x = x := by
    unfold promote
    split
    · exact convert_signed (by norm_num; omega) (by
        have hpow : (2 : ℤ) ^ w ≤ 2 ^ 31 := pow_le_pow_right₀ (by decide) (by rename_i h; exact Nat.le_of_lt_succ h)
        norm_num at hpow ⊢
        omega)
    · exact convert_word hx
  unfold runSwitch
  rw [hlabels, mapM_label hw hns]
  by_cases htyped : ∀ n ∈ ns, (number g n).isSome
  · have hlit : ((ns.zipIdx.map fun p => ((Pat.lit p.1, p.2) : Pat × ℕ)).map da).find?
          (fun c => decide (c.1.bind (label g w) = some x)) =
        (ns.zipIdx.find? fun p => decide (labelValue w p.1 = x)).map fun p => (some p.1, none, p.2) := by
      rw [List.map_map, List.find?_map]
      refine congrArg _ (List.find?_congr fun p hp => ?_)
      have hmem : p.1 ∈ ns := List.fst_mem_of_mem_zipIdx hp
      show decide (label g w p.1 = some x) = _
      rw [label_eq hw (hns _ hmem), if_pos (htyped _ hmem)]
      simp
    rw [if_pos htyped]
    by_cases hnodup : (ns.map (labelValue w)).Nodup
    · rw [if_pos ⟨htyped, hnodup⟩]
      simp only [Option.bind_eq_bind, Option.bind_some, if_pos hnodup, hword, firstWith_zipIdx]
      unfold alternatives
      rw [List.map_append, List.find?_append, List.find?_append, hlit]
      have hdefault : ((ns.zipIdx.map fun p => ((Pat.lit p.1, p.2) : Pat × ℕ)).map da).find? (fun c => decide (c.1 = none)) = none := by
        simp [da]
      rw [hdefault]
      cases ns.zipIdx.find? fun p => decide (labelValue w p.1 = x) with
      | some p => rfl
      | none => cases d <;> simp [da]
    · rw [if_neg fun h => hnodup h.2]
      simp only [Option.bind_eq_bind, Option.bind_some, if_neg hnodup]
  · rw [if_neg htyped, if_neg fun h => htyped h.1]
    rfl

/-! ### When the statement is right -/

/-- The condition for a `switch`: the labels are accepted, and where the word is narrow, each
negative literal comes after the other number for its word. -/
def SwitchOk (g : CTarget) (w : ℕ) (ns : List ℤ) : Prop :=
  Accepted g w ns ∧ (w < 32 → ∀ i (h : i < ns.length), ns[i] < 0 → ns[i] + 2 ^ w ∈ ns.take i)

theorem switch_narrow_iff {ns : List ℤ} (hw : 0 < w) (hns : ∀ n ∈ ns, InRange w n) (d : Option Var) :
    (∀ x, 0 ≤ x → x < 2 ^ w → ∀ i, firstWith (fun n => n % 2 ^ w = x) ns d = some i → firstWith (fun n => n = x) ns d = some i) ↔
      ∀ i (h : i < ns.length), ns[i] < 0 → ns[i] + 2 ^ w ∈ ns.take i := by
  obtain ⟨k, rfl⟩ := Nat.exists_eq_succ_of_ne_zero hw.ne'
  have hpow : (2 : ℤ) ^ (k + 1) = 2 * 2 ^ k := by ring
  have hpos : (0 : ℤ) < 2 ^ k := by positivity
  have hmod : ∀ n ∈ ns, n % 2 ^ (k + 1) = if n < 0 then n + 2 ^ (k + 1) else n := by
    intro n hn
    obtain ⟨hlow, hhigh⟩ := hns n hn
    rw [Nat.succ_sub_one] at hlow
    rw [Nat.succ_eq_add_one] at hhigh
    split
    · rw [← Int.add_emod_right, Int.emod_eq_of_lt (by omega) (by omega)]
    · exact Int.emod_eq_of_lt (by omega) hhigh
  constructor
  · intro hagree i hi hneg
    have hmem : ns[i] ∈ ns := List.getElem_mem hi
    obtain ⟨hlow, -⟩ := hns _ hmem
    rw [Nat.succ_sub_one] at hlow
    -- The word of the negative literal has a first alternative, at or before it.
    obtain ⟨j, hj⟩ : ∃ j, ns.findIdx? (fun n => n % 2 ^ (k + 1) = ns[i] + 2 ^ (k + 1)) = some j := by
      rw [← Option.isSome_iff_exists, List.findIdx?_isSome, List.any_eq_true]
      exact ⟨_, hmem, by rw [hmod _ hmem, if_pos hneg, decide_eq_true rfl]⟩
    have hsel := hagree (ns[i] + 2 ^ (k + 1)) (by omega) (by omega) j (by rw [firstWith, hj, Option.some_or])
    obtain ⟨hlt, hj, hbefore⟩ := List.findIdx?_eq_some_iff_getElem.1 hj
    have hji : j ≤ i := by
      by_contra hji
      exact hbefore i (by omega) (by rw [hmod _ hmem, if_pos hneg, decide_eq_true rfl])
    cases hfound : ns.findIdx? fun n => n = ns[i] + 2 ^ (k + 1) with
    | none =>
      rw [firstWith, hfound, Option.none_or, Option.map_eq_some_iff] at hsel
      obtain ⟨-, -, rfl⟩ := hsel
      omega
    | some j' =>
      rw [firstWith, hfound, Option.some_or, Option.some_inj] at hsel
      subst hsel
      obtain ⟨_, hequal, _⟩ := List.findIdx?_eq_some_iff_getElem.1 hfound
      have hvalue := of_decide_eq_true hequal
      have hne : j' ≠ i := by
        rintro rfl
        omega
      rw [← hvalue]
      exact List.mem_take_iff_getElem.2 ⟨j', by omega, rfl⟩
  · intro hpre x hx hx' i hsel
    have hself : x % 2 ^ (k + 1) = x := Int.emod_eq_of_lt hx hx'
    cases hfound : ns.findIdx? fun n => n % 2 ^ (k + 1) = x with
    | none =>
      have hnone : (ns.findIdx? fun n => n = x) = none := by
        rw [List.findIdx?_eq_none_iff] at hfound ⊢
        intro n hn
        refine decide_eq_false fun hnx => of_decide_eq_false (hfound n hn) ?_
        rw [hnx, hself]
      rwa [firstWith, hnone, ← hfound]
    | some j =>
      rw [firstWith, hfound, Option.some_or, Option.some_inj] at hsel
      subst hsel
      obtain ⟨hlt, hj, hbefore⟩ := List.findIdx?_eq_some_iff_getElem.1 hfound
      have hvalue := of_decide_eq_true hj
      have hfirst : ∀ m (hm : m < j), ns[m] ≠ x := fun m hm hmx =>
        hbefore m hm (decide_eq_true (by rw [hmx, hself]))
      rw [hmod _ (List.getElem_mem hlt)] at hvalue
      have hnonneg : ¬ ns[j] < 0 := by
        intro hneg
        rw [if_pos hneg] at hvalue
        obtain ⟨m, hm, hmx⟩ := List.mem_take_iff_getElem.1 (hpre j hlt hneg)
        exact hfirst m (by omega) (hmx.trans hvalue)
      rw [if_neg hnonneg] at hvalue
      have hsome : (ns.findIdx? fun n => n = x) = some j :=
        List.findIdx?_eq_some_iff_getElem.2 ⟨hlt, decide_eq_true hvalue, fun m hm h => hfirst m hm (of_decide_eq_true h)⟩
      rw [firstWith, hsome, Option.some_or]

theorem switch_iff (hw : w = 8 ∨ w = 16 ∨ w = 32 ∨ w = 64) {ns : List ℤ} (hns : ∀ n ∈ ns, InRange w n) (d : Option Var) :
    (∀ x, 0 ≤ x → x < 2 ^ w → ∀ i, select w x (alternatives ns d) = some i →
      run g w x (.switch' ((alternatives ns d).map da)) = some i) ↔ SwitchOk g w ns := by
  have hwpos : 0 < w := by omega
  unfold SwitchOk
  by_cases hacc : Accepted g w ns
  · have hrun : ∀ x, 0 ≤ x → x < 2 ^ w → run g w x (.switch' ((alternatives ns d).map da)) =
        firstWith (fun n => labelValue w n = x) ns d := by
      intro x hx hx'
      rw [run, runSwitch_alternatives hw hns d ⟨hx, hx'⟩, if_pos hacc]
    rw [and_iff_right hacc]
    by_cases hnarrow : w < 32
    · rw [forall_prop_of_true hnarrow, ← switch_narrow_iff hwpos hns d]
      refine forall_congr' fun x => forall_congr' fun hx => forall_congr' fun hx' => forall_congr' fun i => ?_
      rw [select_alternatives, hrun x hx hx']
      simp only [labelValue, if_pos hnarrow]
    · refine iff_of_true (fun x hx hx' i hsel => ?_) fun h => absurd h hnarrow
      rw [select_alternatives] at hsel
      rw [hrun x hx hx']
      simpa only [labelValue, if_neg hnarrow] using hsel
  · refine iff_of_false (fun h => ?_) fun h => hacc h.1
    obtain ⟨n, hn⟩ : ∃ n, n ∈ ns := by
      refine List.exists_mem_of_ne_nil ns ?_
      rintro rfl
      exact hacc ⟨by simp, List.nodup_nil⟩
    have hx : 0 ≤ n % 2 ^ w := Int.emod_nonneg _ (by positivity)
    have hx' : n % 2 ^ w < 2 ^ w := Int.emod_lt_of_pos _ (by positivity)
    obtain ⟨j, hj⟩ : ∃ j, ns.findIdx? (fun m => m % 2 ^ w = n % 2 ^ w) = some j := by
      rw [← Option.isSome_iff_exists, List.findIdx?_isSome, List.any_eq_true]
      exact ⟨n, hn, decide_eq_true rfl⟩
    have hrun := h _ hx hx' j (by rw [select_alternatives, firstWith, hj, Option.some_or])
    rw [run, runSwitch_alternatives hw hns d ⟨hx, hx'⟩, if_neg hacc] at hrun
    cases hrun

/-- When the statement of a case on literals runs the right alternative for every word. -/
def RunsFirst (g : CTarget) (w : ℕ) (freeVars : ℕ → List Var) : List ℤ → Option Var → Prop
  | [a], some v => if v ∈ freeVars 1 then SwitchOk g w [a] else Comparable g w a
  | [a, b], none =>
    if b = 0 then a ≠ 0 ∧ (g.asserts → Comparable g w a)
    else Comparable g w a ∧ (g.asserts → (number g b).isSome ∧ (Comparable g w b ∨ a % 2 ^ w = b % 2 ^ w))
  | ns, _ => SwitchOk g w ns

theorem select_pair (a b x : ℤ) :
    select w x (alternatives [a, b] none) = if a % 2 ^ w = x then some 0 else if b % 2 ^ w = x then some 1 else none := by
  rw [select_alternatives, firstWith, Option.map_none, Option.or_none]
  by_cases ha : a % 2 ^ w = x
  · simp [List.findIdx?_cons, ha]
  · by_cases hb : b % 2 ^ w = x
    · simp [List.findIdx?_cons, ha, hb]
    · simp [List.findIdx?_cons, ha, hb]

theorem select_default (a x : ℤ) (v : Var) :
    select w x (alternatives [a] (some v)) = if a % 2 ^ w = x then some 0 else some 1 := by
  rw [select_alternatives, firstWith]
  by_cases ha : a % 2 ^ w = x
  · simp [List.findIdx?_cons, ha]
  · simp [List.findIdx?_cons, ha]

/-- The two-way `if` on a literal with a default that does not look at the scrutinee. -/
theorem cif_default (hw : w = 8 ∨ w = 16 ∨ w = 32 ∨ w = 64) {a : ℤ} (ha : InRange w a) (v : Var) :
    (∀ x, 0 ≤ x → x < 2 ^ w → ∀ i, select w x (alternatives [a] (some v)) = some i →
      run g w x (.cif a 0 1 none) = some i) ↔ Comparable g w a := by
  constructor
  · intro h
    have hx : 0 ≤ a % 2 ^ w ∧ a % 2 ^ w < 2 ^ w := ⟨Int.emod_nonneg _ (by positivity), Int.emod_lt_of_pos _ (by positivity)⟩
    have hrun := h _ hx.1 hx.2 0 (by rw [select_default, if_pos rfl])
    cases hnum : number g a with
    | none => simp [run, hnum] at hrun
    | some c =>
      refine ((equal_iff hw ha hx hnum).1 ?_).1
      by_contra hne
      simp [run, hnum, hne] at hrun
  · intro hcomp x hx hx' i hsel
    obtain ⟨c, hnum⟩ := Option.isSome_iff_exists.1 hcomp.1
    have heq := equal_iff hw ha ⟨hx, hx'⟩ hnum
    rw [select_default] at hsel
    by_cases hax : a % 2 ^ w = x
    · rw [if_pos hax] at hsel
      simp [run, hnum, heq.2 ⟨hcomp, hax⟩, ← hsel]
    · have hne : equal c (uint w, x) = false := by
        rw [← Bool.not_eq_true, heq]
        exact fun h => hax h.2
      rw [if_neg hax] at hsel
      simp [run, hnum, hne, ← hsel]

/-- The two-way `if` on two literals: an assertion, where it is checked, compares the second one. -/
theorem cif_pair (hw : w = 8 ∨ w = 16 ∨ w = 32 ∨ w = 64) {a b : ℤ} (ha : InRange w a) (hb : InRange w b) {p q : ℕ} (hpq : p ≠ q) :
    (∀ x, 0 ≤ x → x < 2 ^ w → (a % 2 ^ w = x → run g w x (.cif a p q (some b)) = some p) ∧
      (a % 2 ^ w ≠ x → b % 2 ^ w = x → run g w x (.cif a p q (some b)) = some q)) ↔
      Comparable g w a ∧ (g.asserts → (number g b).isSome ∧ (Comparable g w b ∨ a % 2 ^ w = b % 2 ^ w)) := by
  have hword : ∀ n : ℤ, 0 ≤ n % 2 ^ w ∧ n % 2 ^ w < 2 ^ w := fun n =>
    ⟨Int.emod_nonneg _ (by positivity), Int.emod_lt_of_pos _ (by positivity)⟩
  have heq : ∀ {n : ℤ} {c : IntType × ℤ}, InRange w n → number g n = some c → ∀ x, 0 ≤ x → x < 2 ^ w →
      equal c (uint w, x) = decide (Comparable g w n ∧ n % 2 ^ w = x) := by
    intro n c hn hc x hx hx'
    rw [Bool.eq_iff_iff, decide_eq_true_eq]
    exact equal_iff hw hn ⟨hx, hx'⟩ hc
  cases hnum : number g a with
  | none =>
    refine iff_of_false (fun h => ?_) fun h => by simpa [hnum] using h.1.1
    simpa [run, hnum] using (h _ (hword a).1 (hword a).2).1 rfl
  | some c =>
    cases hasserts : g.asserts with
    | false =>
      have hrun : ∀ x, 0 ≤ x → x < 2 ^ w →
          run g w x (.cif a p q (some b)) = if Comparable g w a ∧ a % 2 ^ w = x then some p else some q := by
        intro x hx hx'
        simp [run, hnum, hasserts, heq ha hnum x hx hx']
      refine ⟨fun h => ⟨?_, fun h => by cases h⟩, fun h x hx hx' => ⟨fun hax => ?_, fun hax _ => ?_⟩⟩
      · have hp := (h _ (hword a).1 (hword a).2).1 rfl
        rw [hrun _ (hword a).1 (hword a).2] at hp
        by_contra hcomp
        rw [if_neg fun h => hcomp h.1, Option.some_inj] at hp
        exact hpq hp.symm
      · rw [hrun x hx hx', if_pos ⟨h.1, hax⟩]
      · rw [hrun x hx hx', if_neg fun h => hax h.2]
    | true =>
      cases hnum' : number g b with
      | none =>
        refine iff_of_false (fun h => ?_) fun h => by simpa using (h.2 rfl).1
        simpa [run, hnum, hasserts, hnum'] using (h _ (hword a).1 (hword a).2).1 rfl
      | some d =>
        have hrun : ∀ x, 0 ≤ x → x < 2 ^ w → run g w x (.cif a p q (some b)) =
            if Comparable g w a ∧ a % 2 ^ w = x then some p
            else if Comparable g w b ∧ b % 2 ^ w = x then some q else none := by
          intro x hx hx'
          simp only [run, hnum, hasserts, hnum', if_true, Option.mapM_some, heq ha hnum x hx hx', heq hb hnum' x hx hx',
            decide_eq_true_eq, Option.bind_eq_bind, Option.bind_some]
          split
          · rfl
          · have hd := heq hb hnum' x hx hx'
            by_cases hbx : Comparable g w b ∧ b % 2 ^ w = x
            · simp [hd, hbx]
            · simp [hd, hbx]
        refine ⟨fun h => ?_, fun h x hx hx' => ⟨fun hax => ?_, fun hax hbx => ?_⟩⟩
        · have hp := (h _ (hword a).1 (hword a).2).1 rfl
          rw [hrun _ (hword a).1 (hword a).2] at hp
          have hcomp : Comparable g w a := by
            by_contra hcomp
            rw [if_neg fun h => hcomp h.1] at hp
            split at hp
            · exact hpq (Option.some.inj hp).symm
            · cases hp
          refine ⟨hcomp, fun _ => ⟨rfl, or_iff_not_imp_right.2 fun hne => ?_⟩⟩
          have hq := (h _ (hword b).1 (hword b).2).2 hne rfl
          rw [hrun _ (hword b).1 (hword b).2, if_neg fun h => hne h.2] at hq
          by_contra hcomp'
          rw [if_neg fun h => hcomp' h.1] at hq
          cases hq
        · rw [hrun x hx hx', if_pos ⟨h.1, hax⟩]
        · have hcomp : Comparable g w b := (h.2 rfl).2.resolve_right fun heq => hax (heq.trans hbx)
          rw [hrun x hx hx', if_neg fun h => hax h.2, if_pos ⟨hcomp, hbx⟩]

/-! ### The whole case -/

theorem correct_of_code {freeVars : ℕ → List Var} {ns : List ℤ} {d : Option Var} {c : Code ℕ} (fuel : ℕ)
    (hc : ∀ m, convertBody freeVars m (alternatives ns d) = some c ∨ m < fuel ∧ convertBody freeVars m (alternatives ns d) = none)
    : Correct g w freeVars ns d ↔
      ∀ x, 0 ≤ x → x < 2 ^ w → ∀ i, select w x (alternatives ns d) = some i → run g w x c = some i := by
  constructor
  · intro h
    obtain ⟨c', ⟨m, hm⟩, hrun⟩ := h
    rcases hc m with hsome | ⟨-, hnone⟩
    · rw [hm] at hsome
      rwa [← Option.some.inj hsome]
    · rw [hm] at hnone
      cases hnone
  · intro hrun
    refine ⟨c, ⟨fuel, ?_⟩, hrun⟩
    rcases hc fuel with hsome | ⟨hlt, -⟩
    · exact hsome
    · exact absurd hlt (lt_irrefl _)

theorem correct_switch (hw : w = 8 ∨ w = 16 ∨ w = 32 ∨ w = 64) {freeVars : ℕ → List Var} {ns : List ℤ} (hns : ∀ n ∈ ns, InRange w n)
    {d : Option Var} (hc : ∀ m, convertBody freeVars m (alternatives ns d) = some (.switch' ((alternatives ns d).map da))) :
    Correct g w freeVars ns d ↔ SwitchOk g w ns :=
  (correct_of_code 0 fun m => .inl (hc m)).trans (switch_iff hw hns d)

theorem forall_select_pair {a b x : ℤ} {P : ℕ → Prop} :
    (∀ i, select w x (alternatives [a, b] none) = some i → P i) ↔
      (a % 2 ^ w = x → P 0) ∧ (a % 2 ^ w ≠ x → b % 2 ^ w = x → P 1) := by
  rw [select_pair]
  by_cases ha : a % 2 ^ w = x
  · simp [ha]
  · by_cases hb : b % 2 ^ w = x
    · simp [ha, hb]
    · simp [ha, hb]

theorem convertBody_zeros (freeVars : ℕ → List Var) (m p q : ℕ) : convertBody freeVars m [(.lit 0, p), (.lit 0, q)] = none := by
  induction m generalizing p q with
  | zero => rfl
  | succ m ih => exact ih q p

theorem emod_ne_zero (hw : w = 8 ∨ w = 16 ∨ w = 32 ∨ w = 64) (hn : InRange w n) (h : n ≠ 0) : n % 2 ^ w ≠ 0 := by
  rcases hw with rfl | rfl | rfl | rfl <;> norm_num [InRange] at hn ⊢ <;> omega

/-- A zero in the second place changes places with the literal in front of it. -/
theorem correct_exchanged {freeVars : ℕ → List Var} (hw : w = 8 ∨ w = 16 ∨ w = 32 ∨ w = 64) {a : ℤ} (ha : InRange w a)
    (hzero : InRange w 0) (ha0 : a ≠ 0) : Correct g w freeVars [a, 0] none ↔ (g.asserts → Comparable g w a) := by
  have hne : a % 2 ^ w ≠ 0 := emod_ne_zero hw ha ha0
  have hcode : ∀ m, convertBody freeVars m (alternatives [a, 0] none) = some (.cif 0 1 0 (some a)) ∨
      m < 1 ∧ convertBody freeVars m (alternatives [a, 0] none) = none := by
    intro m
    cases m with
    | zero => exact .inr ⟨Nat.zero_lt_one, rfl⟩
    | succ m => exact .inl (by cases m <;> exact if_neg ha0)
  have hcomp : Comparable g w 0 := ⟨rfl, .inl (le_refl _)⟩
  have hpair := cif_pair (g := g) hw hzero ha Nat.one_ne_zero
  rw [and_iff_right hcomp, Int.zero_emod] at hpair
  rw [correct_of_code 1 hcode]
  constructor
  · intro h hasserts
    have hright := hpair.1 (fun x hx hx' => ?_) hasserts
    · exact hright.2.resolve_right hne.symm
    · have hx := forall_select_pair.1 (h x hx hx')
      refine ⟨fun h0 => hx.2 ?_ (by rw [Int.zero_emod, h0]), fun _ hax => hx.1 hax⟩
      rw [← h0]
      exact hne
  · intro h x hx hx'
    obtain ⟨h0, ha⟩ := hpair.2 (fun hasserts => ⟨(h hasserts).1, .inl (h hasserts)⟩) x hx hx'
    rw [forall_select_pair, Int.zero_emod]
    exact ⟨fun hax => ha (fun h0 => hne (hax.trans h0.symm)) hax, fun _ h0' => h0 h0'⟩

/-- When a case on literals, made an `if` or a `switch`, runs the first alternative for the word. -/
theorem convertBody_correct_iff (g : CTarget) (freeVars : ℕ → List Var) (hw : w = 8 ∨ w = 16 ∨ w = 32 ∨ w = 64) {ns : List ℤ}
    (hns : ∀ n ∈ ns, InRange w n) (d : Option Var) : Correct g w freeVars ns d ↔ RunsFirst g w freeVars ns d := by
  match ns, d with
  | [], none => exact correct_switch hw hns fun m => by cases m <;> rfl
  | [], some v => exact correct_switch hw hns fun m => by cases m <;> rfl
  | [a], none => exact correct_switch hw hns fun m => by cases m <;> rfl
  | [a], some v =>
    have ha : InRange w a := hns a (by simp)
    by_cases hv : v ∈ freeVars 1
    · rw [RunsFirst, if_pos hv]
      refine correct_switch hw hns fun m => ?_
      cases m <;> exact if_pos hv
    · rw [RunsFirst, if_neg hv, ← cif_default hw ha v]
      refine correct_of_code 0 fun m => .inl ?_
      cases m <;> exact if_neg hv
  | [a, b], none =>
    have ha : InRange w a := hns a (by simp)
    have hb : InRange w b := hns b (by simp)
    by_cases hzero : b = 0
    · subst hzero
      rw [RunsFirst, if_pos rfl]
      by_cases ha0 : a = 0
      · subst ha0
        refine iff_of_false (fun h => ?_) fun h => h.1 rfl
        obtain ⟨c, ⟨m, hm⟩, -⟩ := h
        rw [show alternatives [0, 0] none = [(.lit 0, 0), (.lit 0, 1)] from rfl, convertBody_zeros] at hm
        cases hm
      · rw [and_iff_right ha0]
        exact correct_exchanged hw ha hb ha0
    · rw [RunsFirst, if_neg hzero, ← cif_pair hw ha hb Nat.zero_ne_one]
      rw [correct_of_code 0 (c := .cif a 0 1 (some b)) (fun m => .inl (by cases m <;> exact if_neg hzero))]
      exact forall_congr' fun x => forall_congr' fun hx => forall_congr' fun hx' => by rw [forall_select_pair]
  | [a, b], some v => exact correct_switch hw hns fun m => by cases m <;> rfl
  | a :: b :: c :: ns, none => exact correct_switch hw hns fun m => by cases m <;> rfl
  | a :: b :: c :: ns, some v => exact correct_switch hw hns fun m => by cases m <;> rfl

/-- 64-bit `long`, 128-bit integers, and assertions that check. -/
def gcc : CTarget where
  long := 64
  long_width := .inr rfl
  huge := some ⟨true, 128⟩
  huge_type := .inr (.inr rfl)
  asserts := true

/-- A negative literal of 8 bits behind the other number for its word. -/
theorem convertBody_correct_behind : Correct gcc 8 (fun _ => []) [255, -1, 3] (some v0) :=
  (convertBody_correct_iff gcc _ (.inl rfl) (by decide) _).2 (by show SwitchOk gcc 8 [255, -1, 3]; exact ⟨by decide, by decide⟩)

/-- A byte of all ones is not the literal `-1` for C. -/
theorem negativeByte_missed : ¬ Correct gcc 8 (fun _ => []) [-1] (some v0) := by
  intro h
  have hcode : ∀ m, convertBody (fun _ => []) m (alternatives [-1] (some v0)) = some (.cif (-1) 0 1 none) := fun m => by cases m <;> rfl
  have hrun := (correct_of_code 0 fun m => .inl (hcode m)).1 h 255 (by decide) (by decide) 0 (by decide)
  exact absurd hrun (by decide)

end Jhc.C.LitCase
