import Jhc.C.PrimOps
import Jhc.Cmm.OpEval

/-!
# The C casts of a conversion (C/FromGrin2.hs:297-322, 670-674, 906-921)

A value is a number, for an integer type, or a value of C's floating arithmetic. A cast gives
nothing where C leaves it undefined, and where the generator has no type to cast to.
-/

namespace Jhc.C.Casts
open Jhc.Cmm

/-- The machines the compiler is for: the order of the widths that it assumes. -/
structure Machine extends Target where
  ptr_ge : 32 ≤ bitsPtr
  ptr_le_max : bitsPtr ≤ bitsMax
  max_ge : 64 ≤ bitsMax

/-- The floating arithmetic of C, at each width. -/
structure Floating where
  F : Type
  /-- The value of a constant, and of an integer. -/
  ofNumber : ℕ → Number → F
  toWidth : ℕ → F → F
  /-- Without the fraction; there is none for what is not a number. -/
  truncate : F → Option ℤ
  isZero : F → Bool
  toWidth_ofNumber : ∀ w n, toWidth w (ofNumber w n) = ofNumber w n
  toWidth_toWidth : ∀ w x, toWidth w (toWidth w x) = toWidth w x

inductive CType where
  | int (signed : Bool) (w : ℕ)
  | float (w : ℕ)
  | bool
  deriving DecidableEq

/-- The widths of `stdint.h`. -/
def bitsWidth (g : Target) : TyBits → Option ℕ
  | .bits n => if n = 8 ∨ n = 16 ∨ n = 32 ∨ n = 64 then some n else none
  | .bitsArch .bitsMax => some g.bitsMax
  | .bitsArch .bitsPtr => some g.bitsPtr
  | _ => none

def floatWidth : TyBits → Option ℕ
  | .bits n => if n = 32 ∨ n = 64 ∨ n = 128 then some n else none
  | _ => none

/-- The C type, with the hint `dh` for a type without one. -/
def tyToC (g : Target) (dh : TyHint) : Ty → Option CType
  | .tyBool => some .bool
  | .tyBits b h =>
    match if h = .hintNone then dh else h with
    | .hintUnsigned => (bitsWidth g b).map (.int false)
    | .hintSigned => (bitsWidth g b).map (.int true)
    | .hintFloat => (floatWidth b).map .float
    | _ => none
  | _ => none

inductive CValue (fl : Floating) where
  | int (n : ℤ)
  | float (x : fl.F)

/-- The numbers of an integer type. -/
def inRange (signed : Bool) (w : ℕ) (k : ℤ) : Prop := readC signed w k = k

instance (signed : Bool) (w : ℕ) (k : ℤ) : Decidable (inRange signed w k) :=
  inferInstanceAs (Decidable (readC signed w k = k))

section

variable {fl : Floating}

def castC : CType → CValue fl → Option (CValue fl)
  | .int s w, .int n => some (.int (readC s w n))
  | .int s w, .float x => (fl.truncate x).bind fun k => if inRange s w k then some (.int k) else none
  | .float w, .int n => some (.float (fl.ofNumber w n))
  | .float w, .float x => some (.float (fl.toWidth w x))
  | .bool, .int n => some (.int (if n = 0 then 0 else 1))
  | .bool, .float x => some (.int (if fl.isZero x then 0 else 1))

def castTo (g : Target) (dh : TyHint) (t : Ty) (v : CValue fl) : Option (CValue fl) :=
  (tyToC g dh t).bind fun c => castC c v

def castFunc (g : Target) (co : ConvOp) (ta tb : Ty) (v : CValue fl) : Option (CValue fl) :=
  if ta = tb then some v
  else if tb = .tyBool then castC .bool v
  else if ta = .tyBool then castTo g .hintUnsigned tb v
  else match co with
    | .lobits => castTo g .hintUnsigned tb v
    | .u2U => castTo g .hintUnsigned tb v
    | .zx => castTo g .hintUnsigned tb v
    | .i2I => (castTo g .hintSigned ta v).bind (castTo g .hintSigned tb)
    | .sx => (castTo g .hintSigned ta v).bind (castTo g .hintSigned tb)
    | .f2I => castTo g .hintSigned tb v
    | .i2F => (castTo g .hintSigned ta v).bind (castTo g .hintUnsigned tb)
    | _ => castTo g .hintUnsigned tb v

/-- The value of a conversion, as the type `tb` holds it. -/
def convert (g : Target) (co : ConvOp) (ta tb : Ty) (v : CValue fl) : Option (CValue fl) :=
  (castFunc g co ta tb v).bind (castTo g .hintUnsigned tb)

/-- The type holds the value. -/
def OfType (g : Target) (t : Ty) (v : CValue fl) : Prop := castTo g .hintUnsigned t v = some v

/-- What a literal denotes (`convertConst`); nothing for a fraction at an integer type. -/
def litValue (g : Target) (t : Ty) (n : Number) : Option (CValue fl) :=
  match tyToC g .hintUnsigned t with
  | some (.int s w) => (Number.toInteger n).map fun k => .int (readC s w k)
  | some (.float w) => some (.float (fl.ofNumber w n))
  | some .bool => some (.int (if n = 0 then 0 else 1))
  | none => none

attribute [local grind =] castC castFunc

end

/-! ### Types of the conversions (Cmm/Op.hs:122-137) -/

def IsInt (g : Target) (t : Ty) : Prop := ∃ s w, tyToC g .hintUnsigned t = some (.int s w)

def IsFloat (g : Target) (t : Ty) : Prop := ∃ w, tyToC g .hintUnsigned t = some (.float w)

def ConvTyped (g : Target) : ConvOp → Ty → Ty → Prop
  | .f2I, t₁, t₂ => IsFloat g t₁ ∧ IsInt g t₂
  | .f2U, t₁, t₂ => IsFloat g t₁ ∧ IsInt g t₂
  | .u2F, t₁, t₂ => IsInt g t₁ ∧ IsFloat g t₂
  | .i2F, t₁, t₂ => IsInt g t₁ ∧ IsFloat g t₂
  | .f2F, t₁, t₂ => IsFloat g t₁ ∧ IsFloat g t₂
  | _, t₁, t₂ => IsInt g t₁ ∧ IsInt g t₂

/-! ### Casts of integers -/

/-- Whether the C type of an integer type is signed. -/
def isSigned (dh : TyHint) : Ty → Bool
  | .tyBits _ h => if h = .hintNone then dh = .hintSigned else h = .hintSigned
  | _ => false

/-- An integer type of the width `w`. -/
def IntWidth (g : Target) (t : Ty) (w : ℕ) : Prop :=
  ∃ b h, t = .tyBits b h ∧ h ≠ .hintFloat ∧ h ≠ .hintCharacter ∧ bitsWidth g b = some w

theorem isInt_iff {g : Target} {t : Ty} : IsInt g t ↔ ∃ w, IntWidth g t w := by
  constructor
  · intro h
    obtain ⟨s, w, ht⟩ := h
    cases t with
    | tyBits b h =>
      refine ⟨w, b, h, rfl, ?_⟩
      cases h <;> simp_all [tyToC]
    | _ => cases ht
  · intro h
    obtain ⟨w, b, h, rfl, hf, hc, hb⟩ := h
    cases h <;> simp_all [IsInt,tyToC]

theorem IntWidth.tyToC {g : Target} {t : Ty} {w : ℕ} (h : IntWidth g t w) {dh : TyHint}
    (hd : dh = .hintUnsigned ∨ dh = .hintSigned) : tyToC g dh t = some (.int (isSigned dh t) w) := by
  obtain ⟨b, k, rfl, hf, hc, hb⟩ := h
  rcases hd with rfl | rfl <;> cases k <;> simp_all [Casts.tyToC,isSigned]

theorem IntWidth.ne_bool {g : Target} {t : Ty} {w : ℕ} (h : IntWidth g t w) : t ≠ .tyBool := by
  obtain ⟨b, k, rfl, _⟩ := h
  intro he
  cases he

theorem IntWidth.unique {g : Target} {t : Ty} {w w' : ℕ} (h : IntWidth g t w)
    (h' : IntWidth g t w') : w = w' := by
  have ht := h.tyToC (Or.inl rfl)
  rw [h'.tyToC (Or.inl rfl)] at ht
  cases ht
  rfl

theorem castTo_int {fl : Floating} {g : Target} {t : Ty} {w : ℕ} (h : IntWidth g t w) {dh : TyHint}
    (hd : dh = .hintUnsigned ∨ dh = .hintSigned) (n : ℤ) :
    castTo g dh t (.int n : CValue fl) = some (.int (readC (isSigned dh t) w n)) := by
  unfold castTo
  rw [h.tyToC hd]
  rfl

/-- A conversion that reads its operand as a signed number. -/
def readsSigned : ConvOp → Bool
  | .i2I => true
  | .sx => true
  | .i2F => true
  | _ => false

/-- The number that a conversion reads. -/
def source (co : ConvOp) (ta tb : Ty) (w : ℕ) (n : ℤ) : ℤ :=
  if ta = tb then n else if readsSigned co then readC (isSigned .hintSigned ta) w n else n

theorem source_self (co : ConvOp) (t : Ty) (w : ℕ) (n : ℤ) : source co t t w n = n := if_pos rfl

theorem source_unsigned {co : ConvOp} (h : readsSigned co = false) (ta tb : Ty) (w : ℕ) (n : ℤ) :
    source co ta tb w n = n := by
  unfold source
  rw [h]
  exact ite_self n

theorem source_signed {co : ConvOp} (h : readsSigned co = true) {ta tb : Ty} (hne : ta ≠ tb)
    (w : ℕ) (n : ℤ) : source co ta tb w n = readC (isSigned .hintSigned ta) w n := by
  unfold source
  rw [if_neg hne,if_pos h]

/-- What is read at a width stands for the same word of that width. -/
theorem source_word (co : ConvOp) (ta tb : Ty) (w : ℕ) (n : ℤ) :
    SameWord w (source co ta tb w n) n := by
  unfold source
  split
  · exact sameWord_rfl
  · split
    · exact readC_word _ w n
    · exact sameWord_rfl

/-- A conversion between integer types. -/
def isIntConv : ConvOp → Bool
  | .lobits => true
  | .u2U => true
  | .zx => true
  | .i2I => true
  | .sx => true
  | .b2B => true
  | _ => false

theorem SameWord.mono {w w' : ℕ} {a b : ℤ} (hw : w ≤ w') (h : SameWord w' a b) : SameWord w a b := by
  have hd : (2 : ℤ) ^ w ∣ 2 ^ w' := pow_dvd_pow 2 hw
  exact Int.ModEq.of_dvd hd h

theorem readC_inj {s : Bool} {w : ℕ} {a b : ℤ} : readC s w a = readC s w b ↔ SameWord w a b := by
  constructor
  · intro h
    have ha := readC_word s w a
    rw [h] at ha
    exact ha.symm.trans (readC_word s w b)
  · exact readC_congr s

theorem convert_int {fl : Floating} {g : Target} {co : ConvOp} {ta tb : Ty} {wa wb : ℕ}
    (hc : isIntConv co = true) (ha : IntWidth g ta wa) (hb : IntWidth g tb wb) (n : ℤ) :
    convert g co ta tb (.int n : CValue fl) =
      some (.int (readC (isSigned .hintUnsigned tb) wb (source co ta tb wa n))) := by
  have hu : ∀ m, castTo g .hintUnsigned tb (.int m : CValue fl) =
      some (.int (readC (isSigned .hintUnsigned tb) wb m)) := castTo_int hb (Or.inl rfl)
  have hs : ∀ m, castTo g .hintSigned tb (.int m : CValue fl) =
      some (.int (readC (isSigned .hintSigned tb) wb m)) := castTo_int hb (Or.inr rfl)
  have hsa : ∀ m, castTo g .hintSigned ta (.int m : CValue fl) =
      some (.int (readC (isSigned .hintSigned ta) wa m)) := castTo_int ha (Or.inr rfl)
  unfold convert castFunc source
  by_cases he : ta = tb
  · rw [if_pos he,if_pos he,Option.bind_some,hu]
  · rw [if_neg he,if_neg he,if_neg hb.ne_bool,if_neg ha.ne_bool]
    have htwice : ∀ (s : Bool) m, readC (isSigned .hintUnsigned tb) wb (readC s wb m) =
        readC (isSigned .hintUnsigned tb) wb m := fun s m => readC_congr _ (readC_word s wb m)
    cases co <;> first | (cases hc; done) | simp [readsSigned,hu,hs,hsa,htwice]

end Jhc.C.Casts
