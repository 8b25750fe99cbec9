import Mathlib.Data.Nat.Bitwise
import Mathlib.Data.Int.Bitwise
import Mathlib.Tactic.Ring
import Mathlib.Tactic.Common

/-!
# Readers of bytes

A reader takes a value from the front of a list of bytes. `Reads` says what it does on the
bytes that were written for a value: it gives the value back and takes these bytes, whatever
follows, where the value is one that is kept, and it never gives the value back where not.
-/

namespace Jhc.Lib.Codec
universe u

abbrev Byte := BitVec 8

abbrev Get (α : Type) := StateT (List Byte) Option α

def Reads {α : Type} (g : Get α) (bs : List Byte) (v : α) (kept : Prop) : Prop :=
  (kept → ∀ rest, g (bs ++ rest) = some (v, rest)) ∧
    (¬ kept → ∀ rest w r, g (bs ++ rest) = some (w, r) → w ≠ v)

/-- A pair of writer and reader, and the values that are read back. -/
structure Codec (α : Type) where
  put : α → List Byte
  get : Get α
  kept : α → Prop
  reads : ∀ v, Reads get (put v) v (kept v)

section
variable {α β γ : Type} {g : Get α} {h : Get β} {bs bs' : List Byte} {a : α} {b : β} {ka kb : Prop}

theorem reads_total (hg : ∀ rest, g (bs ++ rest) = some (a, rest)) : Reads g bs a True :=
  ⟨fun _ => hg, fun hnot => absurd trivial hnot⟩

theorem Reads.iff (hg : Reads g bs a ka) (hiff : ka ↔ kb) : Reads g bs a kb := by
  rwa [propext hiff] at hg

theorem reads_pure (a : α) : Reads (pure a) [] a True := reads_total fun _ => rfl

/-- A reader whose result shows what it read. -/
theorem Reads.bind {k : α → Get γ} {c : γ} (hg : Reads g bs a ka) (hk : Reads (k a) bs' c kb)
    (hinj : ∀ a' l r, k a' l = some (c, r) → a' = a) : Reads (g >>= k) (bs ++ bs') c (ka ∧ kb) := by
  constructor
  · rintro ⟨ha, hb⟩ rest
    change (g (bs ++ bs' ++ rest)).bind (fun x => k x.1 x.2) = _
    rw [List.append_assoc, hg.1 ha]
    exact hk.1 hb rest
  · intro hnot rest w r hrun hw
    change (g (bs ++ bs' ++ rest)).bind (fun x => k x.1 x.2) = _ at hrun
    rw [List.append_assoc] at hrun
    by_cases ha : ka
    · rw [hg.1 ha] at hrun
      exact hk.2 (fun hb => hnot ⟨ha, hb⟩) rest w r hrun hw
    · obtain ⟨⟨a', l⟩, ha', hrun⟩ := Option.bind_eq_some_iff.1 hrun
      rw [hw] at hrun
      exact hg.2 ha _ _ _ ha' (hinj a' l r hrun)

theorem Reads.map {f : α → γ} (hg : Reads g bs a ka) (hinj : ∀ a', f a' = f a → a' = a) :
    Reads (g >>= fun a => pure (f a)) bs (f a) ka := by
  have hbind : Reads (g >>= fun a => pure (f a)) (bs ++ []) (f a) (ka ∧ True) := by
    refine hg.bind (reads_pure (f a)) fun a' l r hrun => ?_
    exact hinj a' (Prod.mk.inj (Option.some.inj hrun)).1
  rw [List.append_nil] at hbind
  exact hbind.iff (and_iff_left trivial)

def pairG (g : Get α) (h : Get β) : Get (α × β) := do
  let a ← g
  let b ← h
  pure (a, b)

theorem Reads.pair (hg : Reads g bs a ka) (hh : Reads h bs' b kb) :
    Reads (pairG g h) (bs ++ bs') (a, b) (ka ∧ kb) := by
  refine hg.bind (hh.map fun b' heq => (Prod.mk.inj heq).2) fun a' l r hrun => ?_
  obtain ⟨⟨b', l'⟩, -, hrun⟩ := Option.bind_eq_some_iff.1 hrun
  exact (Prod.mk.inj (Prod.mk.inj (Option.some.inj hrun)).1).1

end

/-! ### Values of several fields -/

section
variable {α₁ α₂ α₃ α₄ β : Type} {g₁ : Get α₁} {g₂ : Get α₂} {g₃ : Get α₃} {g₄ : Get α₄}
variable {b₁ b₂ b₃ b₄ : List Byte} {a₁ : α₁} {a₂ : α₂} {a₃ : α₃} {a₄ : α₄} {k₁ k₂ k₃ k₄ : Prop}

theorem Reads.seq2 {f : α₁ → α₂ → β} (h₁ : Reads g₁ b₁ a₁ k₁) (h₂ : Reads g₂ b₂ a₂ k₂)
    (hinj : ∀ x y, f x y = f a₁ a₂ → x = a₁ ∧ y = a₂) :
    Reads (do let x ← g₁; let y ← g₂; pure (f x y)) (b₁ ++ b₂) (f a₁ a₂) (k₁ ∧ k₂) := by
  have hpair := (h₁.pair h₂).map (f := fun p => f p.1 p.2) fun p hp => Prod.ext_iff.2 (hinj _ _ hp)
  simpa only [pairG, bind_assoc, pure_bind] using hpair

theorem Reads.seq3 {f : α₁ → α₂ → α₃ → β} (h₁ : Reads g₁ b₁ a₁ k₁) (h₂ : Reads g₂ b₂ a₂ k₂)
    (h₃ : Reads g₃ b₃ a₃ k₃) (hinj : ∀ x y z, f x y z = f a₁ a₂ a₃ → x = a₁ ∧ y = a₂ ∧ z = a₃) :
    Reads (do let x ← g₁; let y ← g₂; let z ← g₃; pure (f x y z)) (b₁ ++ (b₂ ++ b₃)) (f a₁ a₂ a₃)
      (k₁ ∧ k₂ ∧ k₃) := by
  have hseq := h₁.seq2 (f := fun x p => f x p.1 p.2) (h₂.pair h₃) fun x p hp => by
    obtain ⟨hx, hy, hz⟩ := hinj _ _ _ hp
    exact ⟨hx, Prod.ext_iff.2 ⟨hy, hz⟩⟩
  simpa only [pairG, bind_assoc, pure_bind] using hseq

theorem Reads.seq4 {f : α₁ → α₂ → α₃ → α₄ → β} (h₁ : Reads g₁ b₁ a₁ k₁) (h₂ : Reads g₂ b₂ a₂ k₂)
    (h₃ : Reads g₃ b₃ a₃ k₃) (h₄ : Reads g₄ b₄ a₄ k₄)
    (hinj : ∀ x y z w, f x y z w = f a₁ a₂ a₃ a₄ → x = a₁ ∧ y = a₂ ∧ z = a₃ ∧ w = a₄) :
    Reads (do let x ← g₁; let y ← g₂; let z ← g₃; let w ← g₄; pure (f x y z w)) (b₁ ++ (b₂ ++ (b₃ ++ b₄)))
      (f a₁ a₂ a₃ a₄) (k₁ ∧ k₂ ∧ k₃ ∧ k₄) := by
  have hseq := h₁.seq3 (f := fun x y p => f x y p.1 p.2) h₂ (h₃.pair h₄) fun x y p hp => by
    obtain ⟨hx, hy, hz, hw⟩ := hinj _ _ _ _ hp
    exact ⟨hx, hy, Prod.ext_iff.2 ⟨hz, hw⟩⟩
  simpa only [pairG, bind_assoc, pure_bind] using hseq

theorem Reads.seq6 {α₅ α₆ : Type} {g₅ : Get α₅} {g₆ : Get α₆} {b₅ b₆ : List Byte} {a₅ : α₅} {a₆ : α₆} {k₅ k₆ : Prop}
    {f : α₁ → α₂ → α₃ → α₄ → α₅ → α₆ → β} (h₁ : Reads g₁ b₁ a₁ k₁) (h₂ : Reads g₂ b₂ a₂ k₂)
    (h₃ : Reads g₃ b₃ a₃ k₃) (h₄ : Reads g₄ b₄ a₄ k₄) (h₅ : Reads g₅ b₅ a₅ k₅) (h₆ : Reads g₆ b₆ a₆ k₆)
    (hinj : ∀ x y z w u v, f x y z w u v = f a₁ a₂ a₃ a₄ a₅ a₆ →
      x = a₁ ∧ y = a₂ ∧ z = a₃ ∧ w = a₄ ∧ u = a₅ ∧ v = a₆) :
    Reads (do let x ← g₁; let y ← g₂; let z ← g₃; let w ← g₄; let u ← g₅; let v ← g₆; pure (f x y z w u v))
      (b₁ ++ (b₂ ++ (b₃ ++ (b₄ ++ (b₅ ++ b₆))))) (f a₁ a₂ a₃ a₄ a₅ a₆) (k₁ ∧ k₂ ∧ k₃ ∧ k₄ ∧ k₅ ∧ k₆) := by
  have hseq := h₁.seq4 (f := fun x y z p => f x y z p.1 p.2.1 p.2.2) h₂ h₃ (h₄.pair (h₅.pair h₆))
    fun x y z p hp => by
      obtain ⟨hx, hy, hz, hw, hu, hv⟩ := hinj _ _ _ _ _ _ hp
      exact ⟨hx, hy, hz, Prod.ext_iff.2 ⟨hw, Prod.ext_iff.2 ⟨hu, hv⟩⟩⟩
  simpa only [pairG, bind_assoc, pure_bind] using hseq

theorem Reads.seq8 {α₅ α₆ α₇ α₈ : Type} {g₅ : Get α₅} {g₆ : Get α₆} {g₇ : Get α₇} {g₈ : Get α₈}
    {b₅ b₆ b₇ b₈ : List Byte} {a₅ : α₅} {a₆ : α₆} {a₇ : α₇} {a₈ : α₈} {k₅ k₆ k₇ k₈ : Prop}
    {f : α₁ → α₂ → α₃ → α₄ → α₅ → α₆ → α₇ → α₈ → β} (h₁ : Reads g₁ b₁ a₁ k₁) (h₂ : Reads g₂ b₂ a₂ k₂)
    (h₃ : Reads g₃ b₃ a₃ k₃) (h₄ : Reads g₄ b₄ a₄ k₄) (h₅ : Reads g₅ b₅ a₅ k₅) (h₆ : Reads g₆ b₆ a₆ k₆)
    (h₇ : Reads g₇ b₇ a₇ k₇) (h₈ : Reads g₈ b₈ a₈ k₈)
    (hinj : ∀ x y z w u v s t, f x y z w u v s t = f a₁ a₂ a₃ a₄ a₅ a₆ a₇ a₈ →
      x = a₁ ∧ y = a₂ ∧ z = a₃ ∧ w = a₄ ∧ u = a₅ ∧ v = a₆ ∧ s = a₇ ∧ t = a₈) :
    Reads (do let x ← g₁; let y ← g₂; let z ← g₃; let w ← g₄; let u ← g₅; let v ← g₆; let s ← g₇; let t ← g₈; pure (f x y z w u v s t))
      (b₁ ++ (b₂ ++ (b₃ ++ (b₄ ++ (b₅ ++ (b₆ ++ (b₇ ++ b₈))))))) (f a₁ a₂ a₃ a₄ a₅ a₆ a₇ a₈)
      (k₁ ∧ k₂ ∧ k₃ ∧ k₄ ∧ k₅ ∧ k₆ ∧ k₇ ∧ k₈) := by
  have hseq := h₁.seq6 (f := fun x y z w u p => f x y z w u p.1 p.2.1 p.2.2) h₂ h₃ h₄ h₅ (h₆.pair (h₇.pair h₈))
    fun x y z w u p hp => by
      obtain ⟨hx, hy, hz, hw, hu, hv, hs, ht⟩ := hinj _ _ _ _ _ _ _ _ hp
      exact ⟨hx, hy, hz, hw, hu, Prod.ext_iff.2 ⟨hv, Prod.ext_iff.2 ⟨hs, ht⟩⟩⟩
  simpa only [pairG, bind_assoc, pure_bind] using hseq

end

/-! ### Bytes and words -/

def getWord8 : Get Byte
  | [] => none
  | b :: bs => some (b, bs)

theorem reads_word8 (b : Byte) : Reads getWord8 [b] b True := reads_total fun _ => rfl

/-- The first byte says how to go on. -/
theorem Reads.tag {α : Type} {k : Byte → Get α} {t : Byte} {bs : List Byte} {v : α} {kept : Prop}
    (h : Reads (k t) bs v kept) : Reads (getWord8 >>= k) (t :: bs) v kept := h

/-- `n` bytes, the most significant first -/
def putBE : ℕ → ℕ → List Byte
  | 0, _ => []
  | n + 1, w => putBE n (w / 256) ++ [BitVec.ofNat 8 w]

def getBE : ℕ → ℕ → Get ℕ
  | 0, r => pure r
  | n + 1, r => do
    let b ← getWord8
    getBE n (r * 256 + b.toNat)

theorem getBE_snoc (n : ℕ) (r : ℕ) (bs : List Byte) (b : Byte) (hlen : bs.length = n) (rest : List Byte) :
    getBE (n + 1) r (bs ++ b :: rest) = (getBE n r (bs ++ b :: rest)).bind fun x => some (x.1 * 256 + b.toNat, rest) := by
  induction bs generalizing n r with
  | nil =>
    subst hlen
    rfl
  | cons c bs ih =>
    subst hlen
    exact ih bs.length (r * 256 + c.toNat) rfl

theorem putBE_length (n w : ℕ) : (putBE n w).length = n := by
  induction n generalizing w with
  | zero => rfl
  | succ n ih => simp [putBE, ih]

theorem getBE_putBE (n w : ℕ) (hw : w < 256 ^ n) (rest : List Byte) :
    getBE n 0 (putBE n w ++ rest) = some (w, rest) := by
  induction n generalizing w rest with
  | zero =>
    obtain rfl : w = 0 := by simpa using hw
    rfl
  | succ n ih =>
    have hdiv : w / 256 < 256 ^ n := by
      rw [Nat.div_lt_iff_lt_mul (by norm_num), ← pow_succ]
      exact hw
    rw [putBE, List.append_assoc, List.singleton_append, getBE_snoc n 0 _ _ (putBE_length n _), ih _ hdiv]
    simp only [Option.bind_some, BitVec.toNat_ofNat, Option.some.injEq, Prod.mk.injEq, and_true]
    omega

theorem reads_BE {n w : ℕ} (hw : w < 256 ^ n) : Reads (getBE n 0) (putBE n w) w True :=
  reads_total (getBE_putBE n w hw)

/-! ### Lists -/

section
variable {α : Type} {put : α → List Byte} {get : Get α} {kept : α → Prop}

def replicateG (get : Get α) : ℕ → Get (List α)
  | 0 => pure []
  | n + 1 => do
    let x ← get
    let xs ← replicateG get n
    pure (x :: xs)

theorem reads_replicate (xs : List α) (h : ∀ x ∈ xs, Reads get (put x) x (kept x)) :
    Reads (replicateG get xs.length) (xs.flatMap put) xs (∀ x ∈ xs, kept x) := by
  induction xs with
  | nil => exact (reads_pure []).iff (by simp)
  | cons x xs ih =>
    have hseq := (h x List.mem_cons_self).seq2 (f := List.cons) (ih fun y hy => h y (List.mem_cons_of_mem x hy))
      fun _ _ => List.cons.inj
    exact hseq.iff List.forall_mem_cons.symm

theorem replicateG_length (n : ℕ) {bs r : List Byte} {xs : List α} (h : replicateG get n bs = some (xs, r)) :
    xs.length = n := by
  induction n generalizing bs xs with
  | zero =>
    cases h
    rfl
  | succ n ih =>
    obtain ⟨⟨x, l⟩, -, h⟩ := Option.bind_eq_some_iff.1 h
    obtain ⟨⟨ys, l'⟩, hys, h⟩ := Option.bind_eq_some_iff.1 h
    cases h
    rw [List.length_cons, ih hys]

theorem replicateG_forall {P : α → Prop} (hget : ∀ bs x r, get bs = some (x, r) → P x) (n : ℕ) {bs r : List Byte}
    {xs : List α} (h : replicateG get n bs = some (xs, r)) : ∀ x ∈ xs, P x := by
  induction n generalizing bs xs with
  | zero =>
    cases h
    exact List.forall_mem_nil P
  | succ n ih =>
    obtain ⟨⟨x, l⟩, hx, h⟩ := Option.bind_eq_some_iff.1 h
    obtain ⟨⟨ys, l'⟩, hys, h⟩ := Option.bind_eq_some_iff.1 h
    cases h
    exact List.forall_mem_cons.2 ⟨hget _ _ _ hx, ih hys⟩

/-- Elements after their number, where the number that is read may be another for a long list. -/
theorem reads_counted {num : Get ℕ} {bs : List Byte} {n : ℕ} (xs : List α) {short : Prop}
    (hn : ∀ rest, num (bs ++ rest) = some (n, rest)) (hshort : short → n = xs.length) (hlong : ¬ short → n ≠ xs.length)
    (h : ∀ x ∈ xs, Reads get (put x) x (kept x)) :
    Reads (num >>= replicateG get) (bs ++ xs.flatMap put) xs (short ∧ ∀ x ∈ xs, kept x) := by
  have hreads := reads_replicate xs h
  have hrun : ∀ rest, (num >>= replicateG get) (bs ++ xs.flatMap put ++ rest) =
      replicateG get n (xs.flatMap put ++ rest) := by
    intro rest
    change (num (bs ++ xs.flatMap put ++ rest)).bind (fun x => replicateG get x.1 x.2) = _
    rw [List.append_assoc, hn]
    rfl
  refine ⟨fun ⟨hs, hk⟩ rest => ?_, fun hnot rest w r heq hw => ?_⟩
  · rw [hrun, hshort hs]
    exact hreads.1 hk rest
  · rw [hrun] at heq
    by_cases hs : short
    · rw [hshort hs] at heq
      exact hreads.2 (fun hk => hnot ⟨hs, hk⟩) rest w r heq hw
    · refine hlong hs ?_
      rw [← replicateG_length n heq, hw]

end

end Jhc.Lib.Codec

/-!
# Compact lists (src/Support/MapBinaryInstance.hs:9-31)

Lists after their length in groups of seven bits. `Word` has 64 bits. The lists of the binary
package have a length of eight bytes.
-/

namespace Jhc.Support.Binary
open Jhc.Lib.Codec

def putLEB128 (w : ℕ) : List Byte :=
  let w' := w >>> 7
  BitVec.ofNat 8 ((w &&& 0x7f) ||| (if w' ≠ 0 then 0x80 else 0)) :: if w' ≠ 0 then putLEB128 w' else []
  termination_by w
  decreasing_by
    rename_i h
    change w >>> 7 ≠ 0 at h
    rw [Nat.shiftRight_eq_div_pow] at h ⊢
    omega

/-- The local `f`; `r` is what the bytes before have given, `s` the place of the next. -/
def getLEB128From (r s : ℕ) : Get ℕ
  | [] => none
  | byte :: bs =>
    let r' := (r ||| ((byte &&& 0x7f).toNat <<< s)) % 2 ^ 64
    if byte &&& 0x80 ≠ 0 then getLEB128From r' (s + 7) bs else some (r', bs)

def getLEB128 : Get ℕ := getLEB128From 0 0

section
variable {α : Type}

def putList (put : α → List Byte) (xs : List α) : List Byte := putLEB128 (xs.length % 2 ^ 64) ++ xs.flatMap put

/-- A length from `2 ^ 63` on is negative as an `Int`. -/
def getList (get : Get α) : Get (List α) := do
  let sz ← getLEB128
  replicateG get (if sz < 2 ^ 63 then sz else 0)

/-- `Binary [a]` -/
def putBinaryList (put : α → List Byte) (xs : List α) : List Byte := putBE 8 (xs.length % 2 ^ 64) ++ xs.flatMap put

/-- A negative length is counted down for ever. -/
def getBinaryList (get : Get α) : Get (List α) := do
  let n ← getBE 8 0
  if n < 2 ^ 63 then replicateG get n else failure

/-- `Binary (Maybe a)` -/
def putMaybe (put : α → List Byte) : Option α → List Byte
  | none => [0]
  | some x => 1 :: put x

def getMaybe (get : Get α) : Get (Option α) := do
  let w ← getWord8
  if w = 0 then pure none
  else do
    let x ← get
    pure (some x)

end

theorem leb_byte (w : ℕ) (c : Bool) :
    let byte : Byte := BitVec.ofNat 8 ((w &&& 0x7f) ||| (if c then 0x80 else 0))
    (byte &&& 0x7f).toNat = w % 128 ∧ (byte &&& 0x80 ≠ 0 ↔ c = true) := by
  have hlow : w &&& 0x7f = w % 128 := Nat.and_two_pow_sub_one_eq_mod w 7
  have hlt : w % 128 < 128 := Nat.mod_lt _ (by norm_num)
  simp only [hlow]
  generalize w % 128 = m at hlt
  revert m c
  decide

theorem getLEB128From_put (w : ℕ) (r s : ℕ) (hr : r < 2 ^ s) (hfit : r + w * 2 ^ s < 2 ^ 64) (rest : List Byte) :
    getLEB128From r s (putLEB128 w ++ rest) = some (r + w * 2 ^ s, rest) := by
  induction w using Nat.strongRecOn generalizing r s with
  | ind w ih =>
    have hdiv : w >>> 7 = w / 128 := Nat.shiftRight_eq_div_pow w 7
    have hsplit := Nat.div_add_mod w 128
    have hpow : 2 ^ (s + 7) = 2 ^ s * 128 := pow_add 2 s 7
    have hor : r ||| ((w % 128) <<< s) = r + w % 128 * 2 ^ s := by
      rw [Nat.or_comm, ← Nat.shiftLeft_add_eq_or_of_lt hr, Nat.shiftLeft_eq, Nat.add_comm]
    have htotal : r + w * 2 ^ s = r + w % 128 * 2 ^ s + w / 128 * 2 ^ (s + 7) := by
      rw [hpow]
      conv_lhs => rw [← hsplit]
      ring
    have hstep : (r + w % 128 * 2 ^ s) % 2 ^ 64 = r + w % 128 * 2 ^ s := Nat.mod_eq_of_lt (by omega)
    rw [putLEB128]
    by_cases hmore : w / 128 = 0
    · obtain ⟨hbyte, hbit⟩ := leb_byte w false
      simp only [hdiv, hmore, ne_eq, not_true_eq_false, if_false, List.cons_append, List.nil_append, getLEB128From]
      simp only [Bool.false_eq_true, if_false, iff_false, not_not] at hbyte hbit
      rw [if_neg (not_not.2 hbit), hbyte, hor, hstep, htotal, hmore, Nat.zero_mul, Nat.add_zero]
    · obtain ⟨hbyte, hbit⟩ := leb_byte w true
      simp only [hdiv, ne_eq, hmore, not_false_eq_true, if_true, List.cons_append, getLEB128From]
      simp only [if_true, iff_true] at hbyte hbit
      rw [if_pos hbit, hbyte, hor, hstep, ih (w / 128) (by omega), ← htotal]
      · have hmod : w % 128 * 2 ^ s ≤ 127 * 2 ^ s := Nat.mul_le_mul_right _ (by omega)
        omega
      · omega

theorem reads_LEB128 {w : ℕ} (hw : w < 2 ^ 64) : Reads getLEB128 (putLEB128 w) w True := by
  refine reads_total fun rest => ?_
  have hget := getLEB128From_put w 0 0 (by norm_num) (by omega) rest
  rwa [pow_zero, mul_one, Nat.zero_add] at hget

section
variable {α : Type} {put : α → List Byte} {get : Get α} {kept : α → Prop}

theorem reads_list (xs : List α) (h : ∀ x ∈ xs, Reads get (put x) x (kept x)) :
    Reads (getList get) (putList put xs) xs (xs.length < 2 ^ 63 ∧ ∀ x ∈ xs, kept x) := by
  have hlt := Nat.mod_lt xs.length (by norm_num : 0 < 2 ^ 64)
  have hnum : ∀ rest, (do let sz ← getLEB128; pure (if sz < 2 ^ 63 then sz else 0) : Get ℕ)
      (putLEB128 (xs.length % 2 ^ 64) ++ rest) =
        some (if xs.length % 2 ^ 64 < 2 ^ 63 then xs.length % 2 ^ 64 else 0, rest) := by
    intro rest
    change (getLEB128 (putLEB128 (xs.length % 2 ^ 64) ++ rest)).bind
      (fun x => some (if x.1 < 2 ^ 63 then x.1 else 0, x.2)) = _
    rw [(reads_LEB128 hlt).1 trivial]
    rfl
  have hcounted := reads_counted xs hnum (fun hs : xs.length < 2 ^ 63 => ?_) (fun hs => ?_) h
  · simpa only [getList, putList, bind_assoc, pure_bind] using hcounted
  · rw [Nat.mod_eq_of_lt (by omega), if_pos hs]
  · split <;> omega

/-- Elements whose bytes and condition are given by a recursion over the list. -/
theorem elements_eq (puts : List α → List Byte) (keeps : List α → Prop) (hnil : puts [] = [])
    (hcons : ∀ x xs, puts (x :: xs) = put x ++ puts xs) (hknil : keeps []) (hkcons : ∀ x xs, keeps (x :: xs) ↔ kept x ∧ keeps xs)
    (xs : List α) : puts xs = xs.flatMap put ∧ (keeps xs ↔ ∀ x ∈ xs, kept x) := by
  induction xs with
  | nil => exact ⟨hnil, iff_of_true hknil (List.forall_mem_nil _)⟩
  | cons x xs ih => exact ⟨by rw [hcons, ih.1, List.flatMap_cons], by rw [hkcons, ih.2, List.forall_mem_cons]⟩

theorem getList_forall {P : α → Prop} (hget : ∀ bs x r, get bs = some (x, r) → P x) {bs r : List Byte}
    {xs : List α} (h : getList get bs = some (xs, r)) : ∀ x ∈ xs, P x := by
  obtain ⟨⟨sz, l⟩, -, h⟩ := Option.bind_eq_some_iff.1 h
  exact replicateG_forall hget _ h

theorem reads_binaryList (xs : List α) (h : ∀ x ∈ xs, Reads get (put x) x (kept x)) :
    Reads (getBinaryList get) (putBinaryList put xs) xs (xs.length < 2 ^ 63 ∧ ∀ x ∈ xs, kept x) := by
  have hlt := Nat.mod_lt xs.length (by norm_num : 0 < 2 ^ 64)
  have hnum := getBE_putBE 8 (xs.length % 2 ^ 64) (by norm_num; omega)
  have hrun : ∀ rest, getBinaryList get (putBinaryList put xs ++ rest) =
      (if xs.length % 2 ^ 64 < 2 ^ 63 then replicateG get (xs.length % 2 ^ 64) else failure) (xs.flatMap put ++ rest) := by
    intro rest
    change (getBE 8 0 (putBinaryList put xs ++ rest)).bind
      (fun x => (if x.1 < 2 ^ 63 then replicateG get x.1 else failure) x.2) = _
    rw [putBinaryList, List.append_assoc, hnum]
    rfl
  have hreads := reads_replicate xs h
  refine ⟨fun ⟨hs, hk⟩ rest => ?_, fun hnot rest w r heq hw => ?_⟩
  · rw [hrun, Nat.mod_eq_of_lt (by omega), if_pos hs]
    exact hreads.1 hk rest
  · rw [hrun] at heq
    split at heq
    · have hlen := replicateG_length _ heq
      rw [hw] at hlen
      rw [← hlen] at heq
      exact hreads.2 (fun hk => hnot ⟨by omega, hk⟩) rest w r heq hw
    · cases heq

theorem reads_maybe (o : Option α) (h : ∀ x ∈ o, Reads get (put x) x (kept x)) :
    Reads (getMaybe get) (putMaybe put o) o (∀ x ∈ o, kept x) := by
  cases o with
  | none => exact (reads_pure none).iff (by simp)
  | some x =>
    have hmap := (h x rfl).map (f := some) fun _ => Option.some.inj
    exact hmap.iff (by simp)

end

end Jhc.Support.Binary
