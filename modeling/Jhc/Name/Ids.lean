import Mathlib.Data.Finset.Sort
import Mathlib.Order.Interval.Finset.Basic
import Mathlib.Data.Int.Interval
import Jhc.Name.Parts
import Jhc.Support.Binary

/-!
# Ids and their bytes (src/Name/Id.hs:80-315, src/Name/Internals.hs:45-190, src/Name/Binary.hs:11-18,
src/StringTable/Atom.hsc:179-188)

A name is a word of an atom and eight bits for its type; an id is an `Int`, odd for a name.
The table of atoms is a parameter.
-/

namespace Jhc.Ids
open Jhc.Lib.Codec Jhc.Support.Binary
open Jhc.Name (NameType)

/-! ### Names -/

def fromEnum (nt : NameType) : ℕ := NameType.all.idxOf nt

/-- An error where there is none. -/
def toEnum (n : ℕ) : Option NameType := NameType.all[n]?

theorem fromEnum_lt (nt : NameType) : fromEnum nt < 10 := by
  cases nt <;> decide

theorem toEnum_fromEnum (nt : NameType) : toEnum (fromEnum nt) = some nt := by
  cases nt <;> decide

/-- The table of atoms: a text has an atom of 23 bits, and is found again where it has less than 256 bytes. -/
structure AtomTable where
  toAtom : List Byte → ℕ
  fromAtom : ℕ → List Byte
  fits : ∀ bs, toAtom bs < 2 ^ 23
  short : ∀ a, (fromAtom a).length < 256
  again : ∀ bs, bs.length < 256 → toAtom (fromAtom (toAtom bs)) = toAtom bs

def bitsToName (a : ℕ) (nt : NameType) : ℕ := ((a <<< 8) % 2 ^ 32) ||| fromEnum nt

def nameToBits (n : ℕ) : ℕ × Option NameType := (n >>> 8, toEnum (n &&& 0xff))

/-- `toId`; an id is the number of `Id`. -/
def toIdInt (w : ℕ) : ℤ := (((w <<< 1) % 2 ^ 32) ||| 1 : ℕ)

def intToName (i : ℤ) : Option ℕ := if i % 2 = 1 then some ((i % 2 ^ 32).toNat >>> 1) else none

theorem bitsToName_eq {a : ℕ} (ha : a < 2 ^ 23) (nt : NameType) : bitsToName a nt = a * 256 + fromEnum nt := by
  have hnt := fromEnum_lt nt
  rw [bitsToName, Nat.shiftLeft_eq, Nat.mod_eq_of_lt (by omega), ← Nat.shiftLeft_eq,
    ← Nat.shiftLeft_add_eq_or_of_lt (by omega), Nat.shiftLeft_eq]

theorem nameToBits_bitsToName {a : ℕ} (ha : a < 2 ^ 23) (nt : NameType) :
    nameToBits (bitsToName a nt) = (a, some nt) := by
  have hnt := fromEnum_lt nt
  have hand : (a * 256 + fromEnum nt) &&& 0xff = fromEnum nt := by
    rw [show (0xff : ℕ) = 2 ^ 8 - 1 from rfl, Nat.and_two_pow_sub_one_eq_mod]
    omega
  rw [bitsToName_eq ha, nameToBits, hand, toEnum_fromEnum, Nat.shiftRight_eq_div_pow]
  congr 1
  omega

theorem toIdInt_eq {w : ℕ} (hw : w < 2 ^ 31) : toIdInt w = 2 * w + 1 := by
  rw [toIdInt, Nat.mod_eq_of_lt (by rw [Nat.shiftLeft_eq]; omega), ← Nat.shiftLeft_add_eq_or_of_lt (by norm_num),
    Nat.shiftLeft_eq]
  push_cast
  ring

theorem intToName_toIdInt {w : ℕ} (hw : w < 2 ^ 31) : intToName (toIdInt w) = some w := by
  rw [toIdInt_eq hw, intToName, if_pos (by omega), Nat.shiftRight_eq_div_pow]
  congr 1
  omega

structure Name where
  w : ℕ
  made : ∃ a nt, a < 2 ^ 23 ∧ w = bitsToName a nt

def Name.ofBits (a : ℕ) (nt : NameType) (ha : a < 2 ^ 23) : Name := ⟨bitsToName a nt, a, nt, ha, rfl⟩

theorem Name.ext {n m : Name} (h : n.w = m.w) : n = m := by
  cases n
  cases m
  cases h
  rfl

def Name.atom (n : Name) : ℕ := (nameToBits n.w).1

theorem Name.bits (n : Name) : ∃ nt, n.atom < 2 ^ 23 ∧ nameToBits n.w = (n.atom, some nt) ∧
    bitsToName n.atom nt = n.w := by
  obtain ⟨w, a, nt, ha, rfl⟩ := n
  have hbits := nameToBits_bitsToName ha nt
  have hatom : Name.atom ⟨bitsToName a nt, a, nt, ha, rfl⟩ = a := congrArg Prod.fst hbits
  exact ⟨nt, by rw [hatom]; exact ha, by rw [hatom]; exact hbits, by rw [hatom]⟩

theorem Name.lt (n : Name) : n.w < 2 ^ 31 := by
  obtain ⟨w, a, nt, ha, rfl⟩ := n
  have hnt := fromEnum_lt nt
  change bitsToName a nt < 2 ^ 31
  rw [bitsToName_eq ha]
  omega

/-! ### Ids -/

/-- An id of a name, or an even one: empty, anonymous or ethereal. -/
structure Id where
  x : ℤ
  range : -2 ^ 63 ≤ x ∧ x < 2 ^ 63
  made : (∃ n : Name, x = toIdInt n.w) ∨ x % 2 = 0

theorem Id.ext {i j : Id} (h : i.x = j.x) : i = j := by
  cases i
  cases j
  cases h
  rfl

def toId (n : Name) : Id where
  x := toIdInt n.w
  range := by
    have hlt := n.lt
    rw [toIdInt_eq hlt]
    omega
  made := .inl ⟨n, rfl⟩

def emptyId : Id := ⟨0, by norm_num, .inr rfl⟩

def anonymous (n : ℤ) (h : 0 < n ∧ n < 2 ^ 62) : Id := ⟨2 * n, by omega, .inr (by omega)⟩

/-- The `k`-th of `candidateIds seed`, where `hash` is `hashInt seed`. -/
def candidateId (hash : ℕ) (k : ℕ) : Id where
  x := Int.bmod (2 + (hash &&& 0x0FFFFFFE : ℕ) + 2 * k) (2 ^ 64)
  range := by
    have hlo := Int.le_bmod (x := 2 + (hash &&& 0x0FFFFFFE : ℕ) + 2 * k) (m := 2 ^ 64) (by norm_num)
    have hhi := Int.bmod_lt (x := 2 + (hash &&& 0x0FFFFFFE : ℕ) + 2 * k) (m := 2 ^ 64) (by norm_num)
    omega
  made := .inr (by
    have hbit : (hash &&& 0x0FFFFFFE) % 2 = 0 := by
      rw [← Nat.and_one_is_mod, Nat.and_assoc]
      simp
    rw [Int.bmod_def]
    split <;> omega)

instance : DecidableEq Id := fun i j => decidable_of_iff (i.x = j.x) ⟨Id.ext, congrArg Id.x⟩

instance : LinearOrder Id := LinearOrder.lift' Id.x fun _ _ => Id.ext

theorem intToName_toId (n : Name) : intToName (toId n).x = some n.w := intToName_toIdInt n.lt

theorem toId_injective {n m : Name} (h : toId n = toId m) : n = m := by
  have hw := intToName_toId n
  rw [h, intToName_toId] at hw
  exact Name.ext (Option.some.inj hw).symm

theorem intToName_even {i : ℤ} (h : i % 2 = 0) : intToName i = none := by
  rw [intToName, if_neg (by omega)]

/-- `fromId` -/
def fromId (i : Id) : Option Name :=
  match h : intToName i.x with
  | none => none
  | some w => some ⟨w, by
      rcases i.made with ⟨n, hn⟩ | heven
      · rw [hn, intToName_toIdInt n.lt] at h
        cases h
        exact n.made
      · rw [intToName_even heven] at h
        cases h⟩

theorem fromId_eq (i : Id) : (fromId i).map Name.w = intToName i.x := by
  unfold fromId
  split
  · next h => exact h.symm
  · next h => exact h.symm

theorem toId_fromId {i : Id} {n : Name} (h : fromId i = some n) : toId n = i := by
  have hw := fromId_eq i
  rw [h] at hw
  apply Id.ext
  rcases i.made with ⟨m, hm⟩ | heven
  · rw [hm, intToName_toIdInt m.lt] at hw
    rw [hm]
    exact congrArg toIdInt (Option.some.inj hw)
  · rw [intToName_even heven] at hw
    cases hw

theorem even_of_fromId {i : Id} (h : fromId i = none) : i.x % 2 = 0 := by
  have hw := fromId_eq i
  rw [h] at hw
  rcases i.made with ⟨m, hm⟩ | heven
  · rw [hm, intToName_toIdInt m.lt] at hw
    cases hw
  · exact heven

/-! ### Bytes of names and ids -/

section
variable (T : AtomTable)

def putAtom (a : ℕ) : List Byte := BitVec.ofNat 8 (T.fromAtom a).length :: T.fromAtom a

def getAtom : Get ℕ := do
  let x ← getWord8
  let bs ← replicateG getWord8 x.toNat
  pure (T.toAtom bs)

/-- The atom is found again under its text. -/
def AtomTable.Kept (a : ℕ) : Prop := T.toAtom (T.fromAtom a) = a

/-- `Binary Name` -/
def putName (n : Name) : List Byte :=
  match nameToBits n.w with
  | (a, some nt) => BitVec.ofNat 8 (fromEnum nt) :: putAtom T a
  | (_, none) => []

/-- The name of an atom and a byte, which is taken with an offset. -/
def getBits (x : ℕ) : Get Name := do
  let bs ← getWord8
  let text ← replicateG getWord8 bs.toNat
  match toEnum x with
  | some nt => pure (Name.ofBits (T.toAtom text) nt (T.fits text))
  | none => failure

def getName : Get Name := do
  let x ← getWord8
  getBits T x.toNat

/-- `Binary Id` -/
def putId (i : Id) : List Byte :=
  match intToName i.x with
  | some n =>
    match nameToBits n with
    | (a, some nt) => BitVec.ofNat 8 (239 + fromEnum nt) :: putAtom T a
    | (_, none) => []
  | none =>
    let x2 := i.x / 2
    if x2 ≥ 0 ∧ x2 < 238 then [BitVec.ofNat 8 x2.toNat] else 238 :: putBE 4 (x2 % 2 ^ 32).toNat

/-- `fromIntegral` to an `Int32` -/
@[irreducible] def int32 (z : ℤ) : ℤ := Int.bmod z (2 ^ 32)

theorem int32_range (z : ℤ) : -2 ^ 31 ≤ int32 z ∧ int32 z < 2 ^ 31 := by
  have hlo := Int.le_bmod (x := z) (m := 2 ^ 32) (by norm_num)
  have hhi := Int.bmod_lt (x := z) (m := 2 ^ 32) (by norm_num)
  rw [int32]
  omega

theorem int32_of_range {z : ℤ} (hlo : -2 ^ 31 ≤ z) (hhi : z < 2 ^ 31) : int32 z = z := by
  rw [int32]
  exact Int.bmod_eq_of_le (by omega) (by omega)

theorem int32_even {z : ℤ} (h : z % 2 = 0) : int32 z % 2 = 0 := by
  rw [int32, Int.bmod_def]
  split <;> omega

theorem int32_word (z : ℤ) : int32 (z % 2 ^ 32).toNat = int32 z := by
  have hmod := Int.emod_bmod z (2 ^ 32)
  push_cast at hmod
  rw [Int.toNat_of_nonneg (Int.emod_nonneg z (by norm_num)), int32, int32]
  exact hmod

/-- The word as an `Int32` that is shifted before it is an `Int`. -/
def shifted (w : ℕ) : Id where
  x := int32 (2 * int32 w)
  range := by
    have hrange := int32_range (2 * int32 w)
    omega
  made := .inr (int32_even (by omega))

def small (b : Byte) : Id where
  x := 2 * b.toNat
  range := by
    have hlt := b.isLt
    omega
  made := .inr (by omega)

def getId : Get Id := do
  let x ← getWord8
  if x > 238 then do
    let n ← getBits T (x.toNat - 239)
    pure (toId n)
  else if x = 238 then do
    let v ← getBE 4 0
    pure (shifted v)
  else pure (small x)

end

section
variable {T : AtomTable}

theorem getText (a : ℕ) (rest : List Byte) :
    (do let x ← getWord8; replicateG getWord8 x.toNat : Get (List Byte)) (putAtom T a ++ rest) =
      some (T.fromAtom a, rest) := by
  have hlen : (BitVec.ofNat 8 (T.fromAtom a).length).toNat = (T.fromAtom a).length :=
    Nat.mod_eq_of_lt (T.short a)
  have hreads := reads_replicate (T.fromAtom a) fun b (_ : b ∈ T.fromAtom a) => reads_word8 b
  rw [List.flatMap_singleton'] at hreads
  have hrun := hreads.1 (fun _ _ => trivial) rest
  change replicateG getWord8 (BitVec.ofNat 8 (T.fromAtom a).length).toNat (T.fromAtom a ++ rest) = _
  rw [hlen]
  exact hrun

theorem reads_atom (a : ℕ) : Reads (getAtom T) (putAtom T a) a (T.Kept a) := by
  have hrun : ∀ rest, getAtom T (putAtom T a ++ rest) = some (T.toAtom (T.fromAtom a), rest) := by
    intro rest
    change ((do let x ← getWord8; replicateG getWord8 x.toNat : Get (List Byte)) (putAtom T a ++ rest)).bind
      (fun x => some (T.toAtom x.1, x.2)) = _
    rw [getText]
    rfl
  refine ⟨fun hkept rest => ?_, fun hnot rest w r heq hw => ?_⟩
  · rw [hrun, hkept]
  · rw [hrun] at heq
    cases heq
    exact hnot hw

theorem ofBits_atom {a : ℕ} {nt : NameType} (ha : a < 2 ^ 23) : (Name.ofBits a nt ha).atom = a :=
  congrArg Prod.fst (nameToBits_bitsToName ha nt)

theorem getBits_run {x : ℕ} {nt : NameType} (hx : toEnum x = some nt) (a : ℕ) (rest : List Byte) :
    getBits T x (putAtom T a ++ rest) =
      some (Name.ofBits (T.toAtom (T.fromAtom a)) nt (T.fits (T.fromAtom a)), rest) := by
  have hbits : getBits T x = (do
      let text ← (do let x ← getWord8; replicateG getWord8 x.toNat : Get (List Byte))
      pure (Name.ofBits (T.toAtom text) nt (T.fits text))) := by
    simp only [getBits, hx, bind_assoc]
  rw [hbits]
  change ((do let x ← getWord8; replicateG getWord8 x.toNat : Get (List Byte)) (putAtom T a ++ rest)).bind
    (fun x => some (Name.ofBits (T.toAtom x.1) nt (T.fits x.1), x.2)) = _
  rw [getText]
  rfl

def Name.Kept (T : AtomTable) (n : Name) : Prop := T.Kept n.atom

/-- The bits of a name after the byte that says its type. -/
theorem reads_bits {n : Name} {nt : NameType} (hbits : nameToBits n.w = (n.atom, some nt))
    (hback : bitsToName n.atom nt = n.w) {x : ℕ} (hx : toEnum x = some nt) :
    Reads (getBits T x) (putAtom T n.atom) n (n.Kept T) := by
  refine ⟨fun hkept rest => ?_, fun hnot rest w r heq hw => ?_⟩
  · rw [getBits_run hx]
    refine congrArg (fun m => some (m, rest)) (Name.ext ?_)
    change bitsToName (T.toAtom (T.fromAtom n.atom)) nt = n.w
    rw [hkept, hback]
  · rw [getBits_run hx] at heq
    cases heq
    have hatom := congrArg Name.atom hw
    rw [ofBits_atom] at hatom
    exact hnot hatom

theorem reads_name (n : Name) : Reads (getName T) (putName T n) n (n.Kept T) := by
  obtain ⟨nt, -, hbits, hback⟩ := n.bits
  have hlt := fromEnum_lt nt
  have hbyte : (BitVec.ofNat 8 (fromEnum nt)).toNat = fromEnum nt := Nat.mod_eq_of_lt (by omega)
  have hput : putName T n = BitVec.ofNat 8 (fromEnum nt) :: putAtom T n.atom := by
    rw [putName, hbits]
  rw [hput]
  exact Reads.tag (reads_bits hbits hback (by rw [hbyte]; exact toEnum_fromEnum nt))

/-- A name's atom is found again, and another id is in the range of an `Int32`. -/
def Id.Kept (T : AtomTable) (i : Id) : Prop :=
  match fromId i with
  | some n => n.Kept T
  | none => -2 ^ 31 ≤ i.x ∧ i.x < 2 ^ 31

theorem shifted_iff {i : Id} (h : i.x % 2 = 0) :
    shifted (i.x / 2 % 2 ^ 32).toNat = i ↔ -2 ^ 31 ≤ i.x ∧ i.x < 2 ^ 31 := by
  have hx : (shifted (i.x / 2 % 2 ^ 32).toNat).x = int32 (2 * int32 (i.x / 2)) :=
    congrArg (fun v => int32 (2 * v)) (int32_word (i.x / 2))
  constructor
  · intro heq
    have hrange := int32_range (2 * int32 (i.x / 2))
    rwa [← hx, heq] at hrange
  · rintro ⟨hlo, hhi⟩
    apply Id.ext
    rw [hx, int32_of_range (z := i.x / 2) (by omega) (by omega), int32_of_range (by omega) (by omega)]
    omega

theorem getId_small {b : Byte} (hb : b.toNat < 238) (rest : List Byte) :
    getId T ([b] ++ rest) = some (small b, rest) := by
  have hgt : ¬ b > 238 := fun hgt => absurd (BitVec.lt_def.1 hgt) (Nat.lt_asymm hb)
  have hne : b ≠ 238 := fun heq => absurd (congrArg BitVec.toNat heq) (Nat.ne_of_lt hb)
  change (if b > 238 then _ else if b = 238 then _ else pure (small b) : Get Id) rest = _
  rw [if_neg hgt, if_neg hne]
  rfl

theorem getId_large {w : ℕ} (hw : w < 256 ^ 4) (rest : List Byte) :
    getId T (238 :: putBE 4 w ++ rest) = some (shifted w, rest) := by
  have hget : getId T (238 :: putBE 4 w ++ rest) = (getBE 4 0 >>= fun v => pure (shifted v) : Get Id) (putBE 4 w ++ rest) := rfl
  have hbind : (getBE 4 0 >>= fun v => pure (shifted v) : Get Id) (putBE 4 w ++ rest) =
      (getBE 4 0 (putBE 4 w ++ rest)).bind fun x => some (shifted x.1, x.2) := rfl
  rw [hget, hbind, getBE_putBE 4 w hw]
  rfl

theorem putId_name {i : Id} {n : Name} (h : fromId i = some n) :
    ∃ nt, putId T i = BitVec.ofNat 8 (239 + fromEnum nt) :: putAtom T n.atom ∧
      nameToBits n.w = (n.atom, some nt) ∧ bitsToName n.atom nt = n.w := by
  obtain ⟨nt, -, hbits, hback⟩ := n.bits
  have hw : intToName i.x = some n.w := by rw [← fromId_eq, h]; rfl
  exact ⟨nt, by simp only [putId, hw, hbits], hbits, hback⟩

theorem reads_id (i : Id) : Reads (getId T) (putId T i) i (i.Kept T) := by
  cases hname : fromId i with
  | some n =>
    obtain ⟨nt, hput, hbits, hback⟩ := putId_name (T := T) hname
    have hlt := fromEnum_lt nt
    have hbyte : (BitVec.ofNat 8 (239 + fromEnum nt)).toNat = 239 + fromEnum nt := Nat.mod_eq_of_lt (by omega)
    have hgt : BitVec.ofNat 8 (239 + fromEnum nt) > 238 := by
      rw [gt_iff_lt, BitVec.lt_def, hbyte]
      exact Nat.lt_add_right _ (by decide)
    have hkept : i.Kept T ↔ n.Kept T := by rw [Id.Kept, hname]
    have hx : toEnum (239 + fromEnum nt - 239) = some nt := by
      rw [Nat.add_sub_cancel_left]
      exact toEnum_fromEnum nt
    have hmap := (reads_bits (T := T) hbits hback hx).map (f := toId) fun m hm => toId_injective hm
    rw [toId_fromId hname] at hmap
    rw [hput]
    refine Reads.iff (Reads.tag ?_) hkept.symm
    rw [if_pos hgt, hbyte]
    exact hmap
  | none =>
    have heven := even_of_fromId hname
    have hint := intToName_even heven
    have hkept : i.Kept T ↔ -2 ^ 31 ≤ i.x ∧ i.x < 2 ^ 31 := by rw [Id.Kept, hname]
    simp only [putId, hint]
    split
    · next hsmall =>
      obtain ⟨n, hn⟩ := Int.eq_ofNat_of_zero_le hsmall.1
      have hbyte : (BitVec.ofNat 8 n).toNat = n := Nat.mod_eq_of_lt (by omega)
      have hid : small (BitVec.ofNat 8 n) = i := by
        apply Id.ext
        change 2 * ((BitVec.ofNat 8 n).toNat : ℤ) = i.x
        rw [hbyte]
        omega
      have hrun : ∀ rest, getId T ([BitVec.ofNat 8 (i.x / 2).toNat] ++ rest) = some (i, rest) := by
        intro rest
        rw [hn, Int.toNat_natCast, ← hid]
        exact getId_small (by rw [hbyte]; omega) rest
      exact (reads_total hrun).iff (iff_of_true trivial (hkept.2 (by omega)))
    · have hword : (i.x / 2 % 2 ^ 32).toNat < 256 ^ 4 := by omega
      have hrun := fun rest => getId_large (T := T) hword rest
      refine ⟨fun hk rest => ?_, fun hnot rest w r heq hw => ?_⟩
      · rw [hrun, (shifted_iff heven).2 (hkept.1 hk)]
      · rw [hrun] at heq
        cases heq
        exact hnot (hkept.2 ((shifted_iff heven).1 hw))

theorem fromId_toId (n : Name) : fromId (toId n) = some n := by
  obtain ⟨m, hm, hw⟩ := Option.map_eq_some_iff.1 ((fromId_eq (toId n)).trans (intToName_toId n))
  rw [hm, Name.ext hw]

theorem fromId_even {i : Id} (h : i.x % 2 = 0) : fromId i = none := by
  have hw := fromId_eq i
  rw [intToName_even h] at hw
  exact Option.map_eq_none_iff.1 hw

theorem kept_toId {n : Name} : (toId n).Kept T ↔ n.Kept T := by
  rw [Id.Kept, fromId_toId]

theorem kept_even {i : Id} (h : i.x % 2 = 0) : i.Kept T ↔ -2 ^ 31 ≤ i.x ∧ i.x < 2 ^ 31 := by
  rw [Id.Kept, fromId_even h]

/-! ### What is read is kept -/

theorem getBits_kept {x : ℕ} {bs r : List Byte} {n : Name} (h : getBits T x bs = some (n, r)) : n.Kept T := by
  obtain ⟨⟨len, l⟩, -, h⟩ := Option.bind_eq_some_iff.1 h
  obtain ⟨⟨text, l'⟩, htext, h⟩ := Option.bind_eq_some_iff.1 h
  have hlen : text.length < 256 := by
    rw [replicateG_length _ htext]
    exact len.isLt
  cases hx : toEnum x with
  | none =>
    simp only [hx] at h
    cases h
  | some nt =>
    simp only [hx] at h
    cases h
    change T.Kept (Name.atom _)
    rw [ofBits_atom]
    exact T.again text hlen

theorem getName_kept (bs : List Byte) (n : Name) (r : List Byte) (h : getName T bs = some (n, r)) : n.Kept T := by
  obtain ⟨⟨b, l⟩, -, h⟩ := Option.bind_eq_some_iff.1 h
  exact getBits_kept h

theorem getId_kept (bs : List Byte) (i : Id) (r : List Byte) (h : getId T bs = some (i, r)) : i.Kept T := by
  obtain ⟨⟨b, l⟩, -, h⟩ := Option.bind_eq_some_iff.1 h
  dsimp only at h
  split at h
  · obtain ⟨⟨n, l'⟩, hn, h⟩ := Option.bind_eq_some_iff.1 h
    cases h
    exact kept_toId.2 (getBits_kept hn)
  · split at h
    · obtain ⟨⟨w, l'⟩, -, h⟩ := Option.bind_eq_some_iff.1 h
      cases h
      exact (kept_even (int32_even (by omega))).2 (int32_range _)
    · cases h
      have hlt := b.isLt
      refine (kept_even ?_).2 ?_
      · change (2 * (b.toNat : ℤ)) % 2 = 0
        omega
      · change -2 ^ 31 ≤ 2 * (b.toNat : ℤ) ∧ 2 * (b.toNat : ℤ) < 2 ^ 31
        omega

end

/-! ### Sets of ids (src/Name/Binary.hs:11-18) -/

abbrev IdSet := Finset Id

def idSetToList (ids : IdSet) : List Id := ids.sort

section
variable (T : AtomTable)

def putIdSet (ids : IdSet) : List Byte :=
  putList (putId T) ((idSetToList ids).filter fun i => (fromId i).isNone) ++
    putList (putName T) ((idSetToList ids).filterMap fromId)

def getIdSet : Get IdSet := do
  let idl ← getList (getId T)
  let ndl ← getList (getName T)
  pure (idl.toFinset ∪ (ndl.map toId).toFinset)

end

section
variable {T : AtomTable}

theorem mem_idSetToList {ids : IdSet} {i : Id} : i ∈ idSetToList ids ↔ i ∈ ids := Finset.mem_sort _

theorem getIdSet_kept {bs r : List Byte} {ids : IdSet} (h : getIdSet T bs = some (ids, r)) : ∀ i ∈ ids, i.Kept T := by
  obtain ⟨⟨idl, l⟩, hidl, h⟩ := Option.bind_eq_some_iff.1 h
  obtain ⟨⟨ndl, l'⟩, hndl, h⟩ := Option.bind_eq_some_iff.1 h
  cases h
  intro i hi
  rcases Finset.mem_union.1 hi with hi | hi
  · exact getList_forall getId_kept hidl i (List.mem_toFinset.1 hi)
  · obtain ⟨n, hn, rfl⟩ := List.mem_map.1 (List.mem_toFinset.1 hi)
    exact kept_toId.2 (getList_forall getName_kept hndl n hn)

/-- The ids of a set are those that are no name and those of the names. -/
theorem idSet_split (ids : IdSet) :
    ((idSetToList ids).filter fun i => (fromId i).isNone).toFinset ∪
      (((idSetToList ids).filterMap fromId).map toId).toFinset = ids := by
  ext i
  simp only [Finset.mem_union, List.mem_toFinset, List.mem_filter, List.mem_map, List.mem_filterMap, mem_idSetToList]
  constructor
  · rintro (⟨hi, -⟩ | ⟨n, ⟨j, hj, hn⟩, rfl⟩)
    · exact hi
    · rw [toId_fromId hn]
      exact hj
  · intro hi
    cases hn : fromId i with
    | none => exact .inl ⟨hi, rfl⟩
    | some n => exact .inr ⟨n, ⟨i, hi, hn⟩, toId_fromId hn⟩

theorem kept_range {i : Id} (h : i.Kept T) : i.x ∈ Finset.Ico (-2 ^ 31 : ℤ) (2 ^ 32) := by
  rw [Finset.mem_Ico]
  cases hn : fromId i with
  | none =>
    have hrange := (kept_even (T := T) (even_of_fromId hn)).1 h
    omega
  | some n =>
    have hlt := n.lt
    have hx : i.x = 2 * n.w + 1 := by
      rw [← toId_fromId hn]
      exact toIdInt_eq hlt
    omega

theorem length_idSetToList {ids : IdSet} (h : ∀ i ∈ ids, i.Kept T) : (idSetToList ids).length < 2 ^ 63 := by
  have hcard : ids.card ≤ (Finset.Ico (-2 ^ 31 : ℤ) (2 ^ 32)).card :=
    Finset.card_le_card_of_injOn Id.x (fun i hi => kept_range (h i hi)) fun _ _ _ _ => Id.ext
  rw [Int.card_Ico] at hcard
  rw [idSetToList, Finset.length_sort]
  norm_num at hcard
  omega

theorem reads_idSet (ids : IdSet) : Reads (getIdSet T) (putIdSet T ids) ids (∀ i ∈ ids, i.Kept T) := by
  refine ⟨fun hkept rest => ?_, fun hnot rest w r heq hw => ?_⟩
  · have hlen := length_idSetToList hkept
    have hids := reads_list ((idSetToList ids).filter fun i => (fromId i).isNone) fun i _ => reads_id (T := T) i
    have hnames := reads_list ((idSetToList ids).filterMap fromId) fun n _ => reads_name (T := T) n
    have hid := hids.1 ⟨(List.length_filter_le _ _).trans_lt hlen, fun i hi =>
      hkept i (mem_idSetToList.1 (List.mem_filter.1 hi).1)⟩
    have hname := hnames.1 ⟨(List.length_filterMap_le _ _).trans_lt hlen, fun n hn => by
      obtain ⟨i, hi, hn⟩ := List.mem_filterMap.1 hn
      rw [← kept_toId, toId_fromId hn]
      exact hkept i (mem_idSetToList.1 hi)⟩
    change (getList (getId T) (putIdSet T ids ++ rest)).bind (fun p => (getList (getName T) p.2).bind fun q =>
      some (p.1.toFinset ∪ (q.1.map toId).toFinset, q.2)) = _
    rw [putIdSet, List.append_assoc, hid, Option.bind_some, hname, Option.bind_some, idSet_split]
  · rw [hw] at heq
    exact hnot (getIdSet_kept heq)

end

end Jhc.Ids
