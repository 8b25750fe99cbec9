import Mathlib
import Jhc.Lib.Lookup

/-!
# Names in the generated C (C/Generate.hs:527-562)

`mangleIdent` writes a name in two modes. `f` keeps letters and digits and doubles an
underscore to make room for the dot; from any other character on `g` writes a letter for each,
up to the next letter of the name. The hexadecimal code of a character that has no letter of
its own has no end mark.
-/

namespace Jhc.C.Mangle

/-- `isAlpha` and `isAlphaNum` of the library, which know all of Unicode: any two predicates
that are right on ASCII. -/
structure Unicode where
  isAlpha : Char → Bool
  isAlphaNum : Char → Bool
  alphaNum_of_alpha : ∀ c, isAlpha c = true → isAlphaNum c = true
  alpha_ascii : ∀ c : Char, c.toNat < 128 → isAlpha c = c.isAlpha
  alphaNum_ascii : ∀ c : Char, c.toNat < 128 → isAlphaNum c = c.isAlphanum

def isDigit (c : Char) : Bool := c.isDigit

def showHex (n : ℕ) : List Char := Nat.toDigits 16 n

/-- The letters of `g`. -/
def letters : List (Char × Char) :=
  [('.', '_'), ('@', 'a'), (',', 'c'), ('^', 'C'), ('(', 'L'), (')', 'R'), ('[', 'B'), (']', 'E'), ('$', 'd'), ('%', 'P'),
   ('#', 'h'), ('/', 's'), ('=', 'e'), ('+', 'p'), ('-', 'm'), ('!', 'b'), ('>', 'r'), ('<', 'l'), ('\'', 't'), ('_', 'u')]

variable (U : Unicode)

/-- Whether a name starts with a letter or a digit. -/
def startsAlphaNum : List Char → Bool
  | [] => false
  | x :: _ => U.isAlphaNum x

mutual

def f : List Char → List Char
  | [] => []
  | x :: xs =>
    if U.isAlphaNum x then x :: f xs
    else if x = '.' ∧ xs.head? = some '.' then '$' :: g (x :: xs)
    else if x = '.' then '_' :: f xs
    else if x = '_' then '_' :: '_' :: f xs
    else if x = '@' then '$' :: '_' :: f xs
    else '$' :: g (x :: xs)
termination_by s => 2 * s.length + (!startsAlphaNum U s).toNat
decreasing_by
  all_goals
    have hf := Bool.toNat_le (!startsAlphaNum U xs)
    first
      | (simp only [List.length_cons]; omega)
      | simp_all [startsAlphaNum]

def g : List Char → List Char
  | [] => []
  | x :: xs =>
    if isDigit x then x :: g xs
    else if U.isAlpha x then '$' :: f (x :: xs)
    else match letters.lookup x with
      | some c => c :: g xs
      | none => 'x' :: (showHex x.toNat ++ g xs)
termination_by s => 2 * s.length + (startsAlphaNum U s).toNat
decreasing_by
  all_goals
    have hg := Bool.toNat_le (startsAlphaNum U xs)
    first
      | (simp only [List.length_cons]; omega)
      | simp_all [startsAlphaNum, U.alphaNum_of_alpha]

end

def mangleIdent (xs : List Char) : List Char := f U xs

/-! ### One character at a time -/

/-- What `g` writes for a character that is no letter. -/
def code (x : Char) : List Char :=
  if isDigit x then [x] else match letters.lookup x with
    | some c => [c]
    | none => 'x' :: showHex x.toNat

/-- The text of a name in the mode of `f` (`true`) or of `g`. -/
def text : Bool → List Char → List Char
  | true => f U
  | false => g U

/-- A dot that `f` writes as an underscore. -/
def SingleDot (s : List Char) : Prop := s.head? = some '.' ∧ s.tail.head? ≠ some '.'

instance (s : List Char) : Decidable (SingleDot s) := inferInstanceAs (Decidable (_ ∧ _))

variable {U} {x : Char} {xs : List Char}

theorem Unicode.not_alphaNum (hx : x ∈ ['.', '_', '@']) : U.isAlphaNum x = false := by
  simp only [List.mem_cons, List.not_mem_nil, or_false] at hx
  obtain rfl | rfl | rfl := hx <;> exact U.alphaNum_ascii _ (by decide)

theorem digit_toNat (hx : isDigit x = true) : 48 ≤ x.toNat ∧ x.toNat ≤ 57 := Char.isDigit_iff_toNat.1 hx

theorem Unicode.digit_not_alpha (hx : isDigit x = true) : U.isAlpha x = false := by
  obtain ⟨hlow, hhigh⟩ := digit_toNat hx
  rw [U.alpha_ascii x (by omega)]
  simp only [Char.isAlpha, Char.isUpper, Char.isLower, Bool.or_eq_false_iff, Bool.and_eq_false_iff, decide_eq_false_iff_not,
    UInt32.le_iff_toNat_le]
  simp only [Char.toNat] at hlow hhigh
  have hA : 'A'.val.toNat = 65 := rfl
  have ha : 'a'.val.toNat = 97 := rfl
  exact ⟨fun h => by omega, .inl (by omega)⟩

theorem text_nil (b : Bool) : text U b [] = [] := by
  cases b with
  | false => rw [text, g]
  | true => rw [text, f]

theorem f_alphaNum (hx : U.isAlphaNum x = true) : text U true (x :: xs) = x :: text U true xs := by
  rw [text, f, if_pos hx]

theorem f_underscore : text U true ('_' :: xs) = '_' :: '_' :: text U true xs := by
  have hnot : ¬ U.isAlphaNum '_' = true := by simp [Unicode.not_alphaNum]
  rw [text, f, if_neg hnot]
  simp

theorem f_at : text U true ('@' :: xs) = '$' :: '_' :: text U true xs := by
  have hnot : ¬ U.isAlphaNum '@' = true := by simp [Unicode.not_alphaNum]
  rw [text, f, if_neg hnot]
  simp

theorem f_dot (h : SingleDot ('.' :: xs)) : text U true ('.' :: xs) = '_' :: text U true xs := by
  have hnot : ¬ U.isAlphaNum '.' = true := by simp [Unicode.not_alphaNum]
  rw [text, f, if_neg hnot, if_neg (fun h' => h.2 h'.2), if_pos rfl]

theorem g_alpha (hx : U.isAlpha x = true) : text U false (x :: xs) = '$' :: x :: text U true xs := by
  have hdigit : ¬ isDigit x = true := by
    intro hd
    rw [Unicode.digit_not_alpha hd] at hx
    cases hx
  show g U (x :: xs) = '$' :: x :: f U xs
  rw [g.eq_def]
  simp only [hdigit, hx, if_true, Bool.false_eq_true, if_false]
  rw [f, if_pos (U.alphaNum_of_alpha x hx)]

theorem g_code (hx : U.isAlpha x = false) : text U false (x :: xs) = code x ++ text U false xs := by
  show g U (x :: xs) = code x ++ g U xs
  rw [g.eq_def]
  simp only [code]
  split_ifs with hdigit halpha
  · rfl
  · rw [hx] at halpha
    cases halpha
  · cases letters.lookup x with
    | none => rfl
    | some c => rfl

/-- The characters that make `f` change to the mode of `g`. -/
theorem f_code (halpha : U.isAlphaNum x = false) (hdot : ¬ SingleDot (x :: xs)) (hunder : x ≠ '_') (hat : x ≠ '@') :
    text U true (x :: xs) = '$' :: (code x ++ text U false xs) := by
  have hx : U.isAlpha x = false := by
    by_contra h
    have htrue := U.alphaNum_of_alpha x (by simpa using h)
    rw [halpha] at htrue
    cases htrue
  rw [← g_code hx]
  show f U (x :: xs) = '$' :: g U (x :: xs)
  rw [f, if_neg (by simp [halpha])]
  by_cases hxd : x = '.'
  · have hhead : xs.head? = some '.' := by
      by_contra hne
      exact hdot ⟨congrArg some hxd, hne⟩
    rw [if_pos ⟨hxd, hhead⟩]
  · rw [if_neg (fun h => hxd h.1), if_neg hxd, if_neg hunder, if_neg hat]

/-! ### The codes of `g` -/

/-- A code that shows where it ends: if it is hexadecimal it has two digits. -/
def TwoDigits (x : Char) : Prop :=
  isDigit x = true ∨ letters.lookup x ≠ none ∨ 16 ≤ x.toNat ∧ x.toNat < 256

instance : Decidable (TwoDigits x) := inferInstanceAs (Decidable (_ ∨ _ ∨ _))

theorem letters_mem {c : Char} (h : letters.lookup x = some c) : (x, c) ∈ letters := Lib.mem_of_lookup h

theorem letters_code {p : Char × Char} (h : p ∈ letters) : isDigit p.2 = false ∧ p.2 ≠ 'x' ∧ p.2 ≠ '$' := by
  have hall : (letters.all fun p => !isDigit p.2 && p.2 != 'x' && p.2 != '$') = true := by decide
  simpa [and_assoc] using List.all_eq_true.1 hall p h

theorem letters_inj {p q : Char × Char} (hp : p ∈ letters) (hq : q ∈ letters) (h : p.2 = q.2) : p.1 = q.1 := by
  have hall : (letters.all fun p => letters.all fun q => p.2 != q.2 || p.1 == q.1) = true := by decide
  simpa [h] using List.all_eq_true.1 (List.all_eq_true.1 hall p hp) q hq

def hexValue (ds : List Char) : ℕ := ds.foldl (fun n d => 16 * n + (if isDigit d then d.toNat - 48 else d.toNat - 87)) 0

theorem showHex_two {n : ℕ} (hlow : 16 ≤ n) (hhigh : n < 256) : (showHex n).length = 2 ∧ hexValue (showHex n) = n := by
  have hall : ∀ m < 256, 16 ≤ m → (showHex m).length = 2 ∧ hexValue (showHex m) = m := by decide +kernel
  exact hall n hhigh hlow

theorem code_ne_nil (x : Char) : code x ≠ [] := by
  unfold code
  split_ifs
  · exact List.cons_ne_nil _ _
  · split
    · exact List.cons_ne_nil _ _
    · exact List.cons_ne_nil _ _

/-- Codes are told apart, whatever follows them. -/
theorem code_append_inj {y : Char} {u v : List Char} (hx : TwoDigits x) (hy : TwoDigits y)
    (h : code x ++ u = code y ++ v) : x = y ∧ u = v := by
  unfold code at h
  by_cases hdx : isDigit x = true
  · rw [if_pos hdx] at h
    by_cases hdy : isDigit y = true
    · rw [if_pos hdy] at h
      exact List.cons.inj h
    · rw [if_neg hdy] at h
      cases hly : letters.lookup y with
      | some c =>
        rw [hly] at h
        have hc := (letters_code (letters_mem hly)).1
        rw [← (List.cons.inj h).1, hdx] at hc
        cases hc
      | none =>
        rw [hly] at h
        rw [(List.cons.inj h).1] at hdx
        exact absurd hdx (by decide)
  · rw [if_neg hdx] at h
    cases hlx : letters.lookup x with
    | some c =>
      rw [hlx] at h
      obtain ⟨hdigit, hne, -⟩ := letters_code (letters_mem hlx)
      by_cases hdy : isDigit y = true
      · rw [if_pos hdy] at h
        rw [← (List.cons.inj h).1, hdigit] at hdy
        cases hdy
      · rw [if_neg hdy] at h
        cases hly : letters.lookup y with
        | some d =>
          rw [hly] at h
          obtain ⟨hcd, huv⟩ := List.cons.inj h
          exact ⟨letters_inj (letters_mem hlx) (letters_mem hly) hcd, huv⟩
        | none =>
          rw [hly] at h
          exact absurd (List.cons.inj h).1 hne
    | none =>
      rw [hlx] at h
      by_cases hdy : isDigit y = true
      · rw [if_pos hdy] at h
        rw [← (List.cons.inj h).1] at hdy
        exact absurd hdy (by decide)
      · rw [if_neg hdy] at h
        cases hly : letters.lookup y with
        | some d =>
          rw [hly] at h
          exact absurd (List.cons.inj h).1.symm (letters_code (letters_mem hly)).2.1
        | none =>
          rw [hly] at h
          obtain ⟨-, htail⟩ := List.cons.inj h
          have hxr : 16 ≤ x.toNat ∧ x.toNat < 256 := by simpa [TwoDigits, hdx, hlx] using hx
          have hyr : 16 ≤ y.toNat ∧ y.toNat < 256 := by simpa [TwoDigits, hdy, hly] using hy
          obtain ⟨hxlen, hxval⟩ := showHex_two hxr.1 hxr.2
          obtain ⟨hylen, hyval⟩ := showHex_two hyr.1 hyr.2
          obtain ⟨hhex, huv⟩ := List.append_inj htail (hxlen.trans hylen.symm)
          have hval : x.toNat = y.toNat := by rw [← hxval, ← hyval, hhex]
          exact ⟨Char.toNat_inj.1 hval, huv⟩

theorem code_head_ne {y : Char} {u v : List Char} : '$' :: u ≠ code y ++ v := by
  intro h
  unfold code at h
  split_ifs at h with hd
  · rw [← (List.cons.inj h).1] at hd
    exact absurd hd (by decide)
  · split at h
    · next c hc => exact (letters_code (letters_mem hc)).2.2 (List.cons.inj h).1.symm
    · exact absurd (List.cons.inj h).1 (by decide)

theorem code_underscore {y : Char} {u v : List Char} (hy : TwoDigits y) (h : '_' :: u = code y ++ v) : y = '.' ∧ u = v := by
  have hdot : code '.' ++ u = code y ++ v := h
  obtain ⟨hy', huv⟩ := code_append_inj (by decide) hy hdot
  exact ⟨hy'.symm, huv⟩

/-! ### Names that can be read back -/

variable (U)

/-- In the mode of `f` no dot that is written as an underscore stands next to an underscore, and
neither follows an `@`; in the mode of `g` no hexadecimal code has other than two digits. -/
def Readable : Bool → List Char → Prop
  | _, [] => True
  | true, x :: xs =>
    if U.isAlphaNum x then Readable true xs
    else if x = '.' ∧ xs.head? ≠ some '.' then xs.head? ≠ some '_' ∧ Readable true xs
    else if x = '_' then ¬ SingleDot xs ∧ Readable true xs
    else if x = '@' then ¬ SingleDot xs ∧ xs.head? ≠ some '_' ∧ Readable true xs
    else TwoDigits x ∧ Readable false xs
  | false, x :: xs => if U.isAlpha x then Readable true xs else TwoDigits x ∧ Readable false xs

variable {U}

/-- How a name begins in the mode of `f`, with what is written for it. -/
inductive First (U : Unicode) : List Char → List Char → Prop
  | nil : First U [] []
  | alphaNum {c cs} (hc : U.isAlphaNum c = true) (h : Readable U true cs) : First U (c :: cs) (c :: text U true cs)
  | dot {cs} (hdot : cs.head? ≠ some '.') (hunder : cs.head? ≠ some '_') (h : Readable U true cs) :
      First U ('.' :: cs) ('_' :: text U true cs)
  | underscore {cs} (hdot : ¬ SingleDot cs) (h : Readable U true cs) :
      First U ('_' :: cs) ('_' :: '_' :: text U true cs)
  | at_ {cs} (hdot : ¬ SingleDot cs) (hunder : cs.head? ≠ some '_') (h : Readable U true cs) :
      First U ('@' :: cs) ('$' :: '_' :: text U true cs)
  | code {c cs} (hc : U.isAlphaNum c = false) (hdot : ¬ SingleDot (c :: cs)) (hunder : c ≠ '_') (hat : c ≠ '@')
      (htwo : TwoDigits c) (h : Readable U false cs) : First U (c :: cs) ('$' :: (code c ++ text U false cs))

attribute [local grind =] Readable

theorem first_of_readable {s : List Char} (h : Readable U true s) : First U s (text U true s) := by
  cases s with
  | nil =>
    rw [text_nil]
    exact .nil
  | cons x xs =>
    rw [Readable] at h
    split_ifs at h with hx hdot hunder hat
    · rw [f_alphaNum hx]
      exact .alphaNum hx h
    · obtain ⟨rfl, hdot⟩ := hdot
      rw [f_dot ⟨rfl, hdot⟩]
      exact .dot hdot h.1 h.2
    · subst hunder
      rw [f_underscore]
      exact .underscore h.1 h.2
    · subst hat
      rw [f_at]
      exact .at_ h.1 h.2.1 h.2.2
    · have hsingle : ¬ SingleDot (x :: xs) := fun hs => hdot ⟨Option.some.inj hs.1, hs.2⟩
      have hx' : U.isAlphaNum x = false := by simpa using hx
      rw [f_code hx' hsingle hunder hat]
      exact .code hx' hsingle hunder hat h.1 h.2

/-- Only a dot or an underscore is written with an underscore in front. -/
theorem first_underscore {s u : List Char} (h : First U s ('_' :: u)) : SingleDot s ∨ s.head? = some '_' := by
  generalize ht : '_' :: u = t at h
  cases h with
  | nil => cases ht
  | alphaNum hx _ =>
    rw [← (List.cons.inj ht).1] at hx
    rw [Unicode.not_alphaNum (by decide)] at hx
    cases hx
  | dot hdot => exact .inl ⟨rfl, hdot⟩
  | underscore => exact .inr rfl
  | at_ => exact absurd (List.cons.inj ht).1 (by decide)
  | code => exact absurd (List.cons.inj ht).1 (by decide)

theorem not_alphaNum_dollar {c : Char} (hc : U.isAlphaNum c = true) : c ≠ '$' ∧ c ≠ '_' := by
  have hdollar : U.isAlphaNum '$' = false := U.alphaNum_ascii _ (by decide)
  have hunder : U.isAlphaNum '_' = false := U.alphaNum_ascii _ (by decide)
  refine ⟨fun h => ?_, fun h => ?_⟩ <;> simp_all

/-- An `@` is not taken for dots. -/
theorem at_ne_code {c : Char} {cs ds : List Char} (hdot : ¬ SingleDot cs) (hunder : cs.head? ≠ some '_')
    (h : Readable U true cs) (hdot' : ¬ SingleDot (c :: ds)) (htwo : TwoDigits c)
    (hu : '_' :: text U true cs = code c ++ text U false ds) : False := by
  obtain ⟨rfl, hrest⟩ := code_underscore htwo hu
  have hhead : ds.head? = some '.' := by
    by_contra hne
    exact hdot' ⟨rfl, hne⟩
  obtain ⟨es, rfl⟩ := List.head?_eq_some_iff.1 hhead
  have halpha : U.isAlpha '.' = false := U.alpha_ascii _ (by decide)
  have hfirst := first_of_readable h
  rw [hrest, g_code halpha] at hfirst
  obtain hsingle | hhead' := first_underscore (u := text U false es) hfirst
  · exact hdot hsingle
  · exact hunder hhead'

/-- In the mode of `f` the first characters are told apart, and then the rest. -/
theorem first_inj {s t u : List Char} (hs : First U s u) (ht : First U t u)
    (htail : ∀ {c : Char} {cs : List Char}, s = c :: cs → ∀ b, Readable U b cs → ∀ ds, Readable U b ds →
      text U b cs = text U b ds → cs = ds) : s = t := by
  cases hs with
  | nil =>
    generalize hu : [] = u at ht
    cases ht with
    | nil => rfl
    | _ => cases hu
  | @alphaNum c cs hc h =>
    obtain ⟨hdollar, hunder⟩ := not_alphaNum_dollar hc
    generalize hu : c :: text U true cs = u at ht
    cases ht with
    | nil => cases hu
    | alphaNum hc' h' =>
      obtain ⟨rfl, hrest⟩ := List.cons.inj hu
      rw [htail rfl true h _ h' hrest]
    | dot => exact absurd (List.cons.inj hu).1 hunder
    | underscore => exact absurd (List.cons.inj hu).1 hunder
    | at_ => exact absurd (List.cons.inj hu).1 hdollar
    | code => exact absurd (List.cons.inj hu).1 hdollar
  | @dot cs hdot hunder h =>
    generalize hu : '_' :: text U true cs = u at ht
    cases ht with
    | nil => cases hu
    | alphaNum hc' =>
      rw [← (List.cons.inj hu).1] at hc'
      exact absurd rfl (not_alphaNum_dollar hc').2
    | dot hdot' hunder' h' => rw [htail rfl true h _ h' (List.cons.inj hu).2]
    | underscore hdot' h' =>
      have hrest := first_of_readable h
      rw [(List.cons.inj hu).2] at hrest
      obtain hsingle | hhead := first_underscore hrest
      · exact absurd hsingle.1 hdot
      · exact absurd hhead hunder
    | at_ => exact absurd (List.cons.inj hu).1 (by decide)
    | code => exact absurd (List.cons.inj hu).1 (by decide)
  | @underscore cs hdot h =>
    generalize hu : '_' :: '_' :: text U true cs = u at ht
    cases ht with
    | nil => cases hu
    | alphaNum hc' =>
      rw [← (List.cons.inj hu).1] at hc'
      exact absurd rfl (not_alphaNum_dollar hc').2
    | dot hdot' hunder' h' =>
      have hrest := first_of_readable h'
      rw [← (List.cons.inj hu).2] at hrest
      obtain hsingle | hhead := first_underscore hrest
      · exact absurd hsingle.1 hdot'
      · exact absurd hhead hunder'
    | underscore hdot' h' => rw [htail rfl true h _ h' (List.cons.inj (List.cons.inj hu).2).2]
    | at_ => exact absurd (List.cons.inj hu).1 (by decide)
    | code => exact absurd (List.cons.inj hu).1 (by decide)
  | @at_ cs hdot hunder h =>
    generalize hu : '$' :: '_' :: text U true cs = u at ht
    cases ht with
    | nil => cases hu
    | alphaNum hc' =>
      rw [← (List.cons.inj hu).1] at hc'
      exact absurd rfl (not_alphaNum_dollar hc').1
    | dot => exact absurd (List.cons.inj hu).1 (by decide)
    | underscore => exact absurd (List.cons.inj hu).1 (by decide)
    | at_ hdot' hunder' h' => rw [htail rfl true h _ h' (List.cons.inj (List.cons.inj hu).2).2]
    | code _ hdot' _ _ htwo' _ => exact (at_ne_code hdot hunder h hdot' htwo' (List.cons.inj hu).2).elim
  | @code c cs hc hdot hunder hat htwo h =>
    generalize hu : '$' :: (code c ++ text U false cs) = u at ht
    cases ht with
    | nil => cases hu
    | alphaNum hc' =>
      rw [← (List.cons.inj hu).1] at hc'
      exact absurd rfl (not_alphaNum_dollar hc').1
    | dot => exact absurd (List.cons.inj hu).1 (by decide)
    | underscore => exact absurd (List.cons.inj hu).1 (by decide)
    | at_ hdot' hunder' h' => exact (at_ne_code hdot' hunder' h' hdot htwo (List.cons.inj hu).2.symm).elim
    | code hc' hdot' hunder' hat' htwo' h' =>
      obtain ⟨rfl, hrest⟩ := code_append_inj htwo htwo' (List.cons.inj hu).2
      rw [htail rfl false h _ h' hrest]

theorem second_inj {s t : List Char} (hs : Readable U false s) (ht : Readable U false t) (heq : text U false s = text U false t)
    (htail : ∀ {c : Char} {cs : List Char}, s = c :: cs → ∀ b, Readable U b cs → ∀ ds, Readable U b ds →
      text U b cs = text U b ds → cs = ds) : s = t := by
  cases s with
  | nil =>
    cases t with
    | nil => rfl
    | cons y ys =>
      exfalso
      rw [text_nil] at heq
      by_cases hy : U.isAlpha y = true
      · rw [g_alpha hy] at heq
        cases heq
      · rw [g_code (by simpa using hy)] at heq
        exact code_ne_nil y (List.append_eq_nil_iff.1 heq.symm).1
  | cons x xs =>
    rw [Readable] at hs
    cases t with
    | nil =>
      exfalso
      rw [text_nil] at heq
      by_cases hx : U.isAlpha x = true
      · rw [g_alpha hx] at heq
        cases heq
      · rw [g_code (by simpa using hx)] at heq
        exact code_ne_nil x (List.append_eq_nil_iff.1 heq).1
    | cons y ys =>
      rw [Readable] at ht
      by_cases hx : U.isAlpha x = true
      · rw [if_pos hx] at hs
        rw [g_alpha hx] at heq
        by_cases hy : U.isAlpha y = true
        · rw [if_pos hy] at ht
          rw [g_alpha hy] at heq
          obtain ⟨rfl, hrest⟩ := List.cons.inj (List.cons.inj heq).2
          rw [htail rfl true hs _ ht hrest]
        · rw [g_code (by simpa using hy)] at heq
          exact absurd heq code_head_ne
      · rw [if_neg hx] at hs
        rw [g_code (by simpa using hx)] at heq
        by_cases hy : U.isAlpha y = true
        · rw [g_alpha hy] at heq
          exact absurd heq.symm code_head_ne
        · rw [if_neg hy] at ht
          rw [g_code (by simpa using hy)] at heq
          obtain ⟨rfl, hrest⟩ := code_append_inj hs.1 ht.1 heq
          rw [htail rfl false hs.2 _ ht.2 hrest]

theorem readable_inj {s t : List Char} {b : Bool} (hs : Readable U b s) (ht : Readable U b t)
    (heq : text U b s = text U b t) : s = t := by
  induction s generalizing t b with
  | nil =>
    cases b with
    | true =>
      have hfirst := first_of_readable ht
      rw [← heq] at hfirst
      exact first_inj (first_of_readable hs) hfirst (by intro _ _ h; cases h)
    | false => exact second_inj hs ht heq (by intro _ _ h; cases h)
  | cons x xs ih =>
    have htail : ∀ {c : Char} {cs : List Char}, x :: xs = c :: cs → ∀ b, Readable U b cs → ∀ ds, Readable U b ds →
        text U b cs = text U b ds → cs = ds := by
      intro c cs hcons b hcs ds hds hrest
      obtain ⟨rfl, rfl⟩ := List.cons.inj hcons
      exact ih hcs hds hrest
    cases b with
    | true =>
      have hfirst := first_of_readable ht
      rw [← heq] at hfirst
      exact first_inj (first_of_readable hs) hfirst htail
    | false => exact second_inj hs ht heq htail

/-! ### Identifiers -/

/-- The keywords of C that are words of letters. -/
def keywords : List (List Char) :=
  ["auto", "break", "case", "char", "const", "continue", "default", "do", "double", "else", "enum", "extern", "float",
   "for", "goto", "if", "inline", "int", "long", "register", "restrict", "return", "short", "signed", "sizeof", "static",
   "struct", "switch", "typedef", "union", "unsigned", "void", "volatile", "while"].map String.toList

/-- The keywords with an underscore in front, without it. -/
def keywords_ : List (List Char) := ["Bool", "Complex", "Imaginary"].map String.toList

variable (U)

/-- A letter of Unicode and `$` may stand in an identifier. -/
structure IsIdentifier (s : List Char) : Prop where
  chars : ∀ c ∈ s, U.isAlphaNum c = true ∨ c = '_' ∨ c = '$'
  first : ∃ c cs, s = c :: cs ∧ isDigit c = false
  keyword : s ∉ keywords ∧ s ∉ keywords_.map ('_' :: ·)

def toName (s : List Char) : List Char := mangleIdent U s

/-- Names that can be read back and do not begin with a digit or come out as a keyword. -/
structure Safe (s : List Char) : Prop where
  readable : Readable U true s
  first : ∃ c cs, s = c :: cs ∧ isDigit c = false
  keyword : s ∉ keywords ∧ s ∉ keywords_.map ('.' :: ·)

variable {U}

theorem code_chars (h : TwoDigits x) : ∀ c ∈ code x, U.isAlphaNum c = true ∨ c = '_' := by
  have hascii : ∀ c : Char, c.toNat < 128 ∧ c.isAlphanum = true → U.isAlphaNum c = true := by
    intro c hc
    rw [U.alphaNum_ascii c hc.1]
    exact hc.2
  intro c hc
  unfold code at hc
  split_ifs at hc with hd
  · obtain rfl := List.mem_singleton.1 hc
    refine .inl (hascii c ⟨by have := digit_toNat hd; omega, ?_⟩)
    rw [Char.isAlphanum, show c.isDigit = true from hd, Bool.or_true]
  · split at hc
    · next d hd' =>
      obtain rfl := List.mem_singleton.1 hc
      have hall : (letters.all fun p => p.2 == '_' || (decide (p.2.toNat < 128) && p.2.isAlphanum)) = true := by decide
      have hmem := List.all_eq_true.1 hall _ (letters_mem hd')
      simp only [Bool.or_eq_true, beq_iff_eq, Bool.and_eq_true, decide_eq_true_eq] at hmem
      exact hmem.symm.imp_left (hascii c)
    · next hnone =>
      have hrange : 16 ≤ x.toNat ∧ x.toNat < 256 := by simpa [TwoDigits, hd, hnone] using h
      have hall : ∀ m < 256, 16 ≤ m → ((showHex m).all fun d => decide (d.toNat < 128) && d.isAlphanum) = true := by
        decide +kernel
      obtain rfl | hmem := List.mem_cons.1 hc
      · exact .inl (hascii _ (by decide))
      · have hd' := List.all_eq_true.1 (hall x.toNat hrange.2 hrange.1) c hmem
        simp only [Bool.and_eq_true, decide_eq_true_eq] at hd'
        exact .inl (hascii c hd')

theorem text_chars {s : List Char} {b : Bool} (h : Readable U b s) :
    ∀ c ∈ text U b s, U.isAlphaNum c = true ∨ c = '_' ∨ c = '$' := by
  induction s generalizing b with
  | nil =>
    rw [text_nil]
    intro c hc
    cases hc
  | cons x xs ih =>
    have hcode : TwoDigits x → ∀ c ∈ code x, U.isAlphaNum c = true ∨ c = '_' ∨ c = '$' :=
      fun htwo c hc => (code_chars htwo c hc).imp_right .inl
    cases b with
    | true =>
      have hfirst := first_of_readable h
      generalize text U true (x :: xs) = t at hfirst
      cases hfirst with
      | alphaNum hc h' => exact List.forall_mem_cons.2 ⟨.inl hc, ih h'⟩
      | dot _ _ h' => exact List.forall_mem_cons.2 ⟨.inr (.inl rfl), ih h'⟩
      | underscore _ h' => exact List.forall_mem_cons.2 ⟨.inr (.inl rfl), List.forall_mem_cons.2 ⟨.inr (.inl rfl), ih h'⟩⟩
      | at_ _ _ h' => exact List.forall_mem_cons.2 ⟨.inr (.inr rfl), List.forall_mem_cons.2 ⟨.inr (.inl rfl), ih h'⟩⟩
      | code _ _ _ _ htwo h' =>
        exact List.forall_mem_cons.2 ⟨.inr (.inr rfl), List.forall_mem_append.2 ⟨hcode htwo, ih h'⟩⟩
    | false =>
      rw [Readable] at h
      split_ifs at h with hx
      · rw [g_alpha hx]
        exact List.forall_mem_cons.2 ⟨.inr (.inr rfl), List.forall_mem_cons.2 ⟨.inl (U.alphaNum_of_alpha x hx), ih h⟩⟩
      · rw [g_code (by simpa using hx)]
        exact List.forall_mem_append.2 ⟨hcode h.1, ih h.2⟩

/-- A word of letters and digits is written as it is. -/
theorem text_word {w : List Char} (h : w.all (fun c => decide (c.toNat < 128) && c.isAlphanum) = true) :
    text U true w = w ∧ Readable U true w := by
  induction w with
  | nil => exact ⟨text_nil true, trivial⟩
  | cons c cs ih =>
    rw [List.all_cons, Bool.and_eq_true] at h
    obtain ⟨htext, hread⟩ := ih h.2
    have hc : U.isAlphaNum c = true := by
      have hc' := h.1
      simp only [Bool.and_eq_true, decide_eq_true_eq] at hc'
      rw [U.alphaNum_ascii c hc'.1]
      exact hc'.2
    refine ⟨by rw [f_alphaNum hc, htext], ?_⟩
    rw [Readable, if_pos hc]
    exact hread

theorem toName_keyword {s : List Char} (h : Safe U s) : toName U s ∉ keywords ∧ toName U s ∉ keywords_.map ('_' :: ·) := by
  refine ⟨fun hmem => ?_, fun hmem => ?_⟩
  · have hall : (keywords.all fun w => w.all fun c => decide (c.toNat < 128) && c.isAlphanum) = true := by rfl
    obtain ⟨htext, hread⟩ := text_word (U := U) (List.all_eq_true.1 hall _ hmem)
    have heq : s = toName U s := readable_inj h.readable hread htext.symm
    rw [← heq] at hmem
    exact h.keyword.1 hmem
  · obtain ⟨w, hw, heq⟩ := List.mem_map.1 hmem
    have hall : (keywords_.all fun w => (w.all fun c => decide (c.toNat < 128) && c.isAlphanum) && w.head? != some '.' &&
      w.head? != some '_') = true := by rfl
    have hw' := List.all_eq_true.1 hall w hw
    simp only [Bool.and_eq_true, bne_iff_ne] at hw'
    obtain ⟨htext, hread⟩ := text_word (U := U) hw'.1.1
    have hdot : Readable U true ('.' :: w) := by
      rw [Readable, if_neg (by simp [Unicode.not_alphaNum]), if_pos ⟨rfl, hw'.1.2⟩]
      exact ⟨hw'.2, hread⟩
    have htext' : text U true ('.' :: w) = '_' :: w := by rw [f_dot ⟨rfl, hw'.1.2⟩, htext]
    have hs : s = '.' :: w := readable_inj h.readable hdot (heq.symm.trans htext'.symm)
    exact h.keyword.2 (List.mem_map.2 ⟨w, hw, hs.symm⟩)

theorem toName_first {s : List Char} (h : Safe U s) : ∃ c cs, toName U s = c :: cs ∧ isDigit c = false := by
  obtain ⟨c, cs, rfl, hd⟩ := h.first
  have hfirst := first_of_readable h.readable
  show ∃ d ds, text U true (c :: cs) = d :: ds ∧ isDigit d = false
  generalize text U true (c :: cs) = t at hfirst
  cases hfirst with
  | alphaNum => exact ⟨_, _, rfl, hd⟩
  | dot => exact ⟨_, _, rfl, by decide⟩
  | underscore => exact ⟨_, _, rfl, by decide⟩
  | at_ => exact ⟨_, _, rfl, by decide⟩
  | code => exact ⟨_, _, rfl, by decide⟩

theorem toName_identifier {s : List Char} (h : Safe U s) : IsIdentifier U (toName U s) where
  chars := text_chars h.readable
  first := toName_first h
  keyword := toName_keyword h

/-- Safe names become identifiers, and different ones different identifiers. -/
theorem toName_distinct {s t : List Char} (hs : Safe U s) (ht : Safe U t) (hne : s ≠ t) :
    IsIdentifier U (toName U s) ∧ IsIdentifier U (toName U t) ∧ toName U s ≠ toName U t :=
  ⟨toName_identifier hs, toName_identifier ht, fun heq => hne (readable_inj hs.readable ht.readable heq)⟩

/-! ### Names that come out the same -/

def ascii : Unicode where
  isAlpha := Char.isAlpha
  isAlphaNum := Char.isAlphanum
  alphaNum_of_alpha c h := by rw [Char.isAlphanum, h, Bool.true_or]
  alpha_ascii _ _ := rfl
  alphaNum_ascii _ _ := rfl

theorem text_append_word {u : List Char} (hu : ∀ c ∈ u, U.isAlphaNum c = true) (v : List Char) :
    text U true (u ++ v) = u ++ text U true v := by
  induction u with
  | nil => rfl
  | cons c cs ih =>
    rw [List.forall_mem_cons] at hu
    rw [List.cons_append, f_alphaNum hu.1, ih hu.2, List.cons_append]

/-- A dot and an underscore can be exchanged. -/
theorem toName_exchange {u v : List Char} (hu : ∀ c ∈ u, U.isAlphaNum c = true) (hv : v.head? ≠ some '.') :
    toName U (u ++ '.' :: '_' :: v) = toName U (u ++ '_' :: '.' :: v) := by
  have hdot : SingleDot ('.' :: '_' :: v) := ⟨rfl, by simp⟩
  show text U true _ = text U true _
  rw [text_append_word hu, text_append_word hu, f_dot hdot, f_underscore, f_underscore, f_dot ⟨rfl, hv⟩]

theorem g_digits {v : List Char} (hv : ∀ c ∈ v, isDigit c = true) : text U false v = v := by
  induction v with
  | nil => exact text_nil false
  | cons c cs ih =>
    rw [List.forall_mem_cons] at hv
    rw [g_code (Unicode.digit_not_alpha hv.1), code, if_pos hv.1, ih hv.2]
    rfl

/-- An `@` before a dot can be taken for a dot, where digits follow. -/
theorem toName_at_dot {u v : List Char} (hu : ∀ c ∈ u, U.isAlphaNum c = true) (hv : ∀ c ∈ v, isDigit c = true) :
    toName U (u ++ '@' :: '.' :: v) = toName U (u ++ '.' :: '.' :: v) := by
  have hhead : v.head? ≠ some '.' := by
    intro h
    obtain ⟨cs, rfl⟩ := List.head?_eq_some_iff.1 h
    exact absurd (hv '.' (List.mem_cons_self ..)) (by decide)
  have hword : text U true v = v := by
    have hdigit : ∀ c ∈ v, U.isAlphaNum c = true := by
      intro c hc
      have hd := hv c hc
      obtain ⟨hlow, hhigh⟩ := digit_toNat hd
      rw [U.alphaNum_ascii c (by omega), Char.isAlphanum, show c.isDigit = true from hd, Bool.or_true]
    have happ := text_append_word hdigit []
    rwa [List.append_nil, text_nil, List.append_nil] at happ
  have hdots : ¬ SingleDot ('.' :: '.' :: v) := fun h => h.2 rfl
  have hdot : U.isAlpha '.' = false := U.alpha_ascii _ (by decide)
  show text U true _ = text U true _
  rw [text_append_word hu, text_append_word hu, f_at, f_dot ⟨rfl, hhead⟩, hword,
    f_code (Unicode.not_alphaNum (by decide)) hdots (by decide) (by decide), g_code hdot, g_digits hv]
  rfl

theorem toName_hex : toName ascii ['"', '1', '1'] = "$x2211".toList ∧ toName ascii ['\u2211'] = "$x2211".toList := by
  show text ascii true ['"', '1', '1'] = _ ∧ text ascii true ['\u2211'] = _
  rw [f_code rfl (by decide) (by decide) (by decide), g_code rfl, g_code rfl, text_nil,
    f_code rfl (by decide) (by decide) (by decide), text_nil]
  exact ⟨rfl, rfl⟩

/-- `f._` and `f_.`, `@.` and `..`, `"11` and the character U+2211 -/
theorem toName_collides :
    (['f', '.', '_'] ≠ ['f', '_', '.'] ∧ toName ascii ['f', '.', '_'] = toName ascii ['f', '_', '.']) ∧
    (['@', '.'] ≠ ['.', '.'] ∧ toName ascii ['@', '.'] = toName ascii ['.', '.']) ∧
    (['"', '1', '1'] ≠ ['\u2211'] ∧ toName ascii ['"', '1', '1'] = toName ascii ['\u2211']) :=
  ⟨⟨by decide, toName_exchange (u := ['f']) (v := []) (List.forall_mem_singleton.2 rfl) (by decide)⟩,
    ⟨by decide, toName_at_dot (u := []) (v := []) (by simp) (by simp)⟩,
    ⟨by decide, toName_hex.1.trans toName_hex.2.symm⟩⟩

/-- The names `fM.x` and `fM.y` of two functions. -/
theorem toName_functions :
    IsIdentifier ascii (toName ascii "fM.x".toList) ∧ IsIdentifier ascii (toName ascii "fM.y".toList) ∧
    toName ascii "fM.x".toList ≠ toName ascii "fM.y".toList := by
  have hread : ∀ c, ascii.isAlphaNum c = true → c ≠ '.' → c ≠ '_' → Readable ascii true ['f', 'M', '.', c] := by
    intro c hc hdot hunder
    have hf : ascii.isAlphaNum 'f' = true := rfl
    have hM : ascii.isAlphaNum 'M' = true := rfl
    have hd : ¬ ascii.isAlphaNum '.' = true := by decide
    rw [Readable, if_pos hf, Readable, if_pos hM, Readable, if_neg hd, if_pos ⟨rfl, by simpa using hdot⟩,
      Readable, if_pos hc]
    exact ⟨by simpa using hunder, trivial⟩
  exact toName_distinct ⟨hread 'x' rfl (by decide) (by decide), ⟨'f', _, rfl, rfl⟩, by decide, by decide⟩
    ⟨hread 'y' rfl (by decide) (by decide), ⟨'f', _, rfl, rfl⟩, by decide, by decide⟩ (by decide)

end Jhc.C.Mangle
