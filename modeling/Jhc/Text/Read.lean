import Mathlib
import Mathlib.Data.List.TakeDrop

/-!
# Reading text (lib/jhc/Jhc/Text/Read.hs:12, 33-114, 146-150; lib/jhc/Prelude/CType.hs)

The lexer of the library and `readParen`. `none` is a reader that does not end; a list
comprehension whose generator does not end has no result.
-/

namespace Jhc.Text

/-! ### Character classes (CType.hs:17-41) -/

def isSpace (c : Char) : Bool := c ∈ " \t\n\r\x0c\x0b\xa0".toList
def isUpper (c : Char) : Bool := 'A' ≤ c && c ≤ 'Z'
def isLower (c : Char) : Bool := 'a' ≤ c && c ≤ 'z'
def isAlpha (c : Char) : Bool := isUpper c || isLower c
def isDigit (c : Char) : Bool := '0' ≤ c && c ≤ '9'
def isOctDigit (c : Char) : Bool := '0' ≤ c && c ≤ '7'
def isHexDigit (c : Char) : Bool := isDigit c || ('A' ≤ c && c ≤ 'F') || ('a' ≤ c && c ≤ 'f')
def isAlphaNum (c : Char) : Bool := isAlpha c || isDigit c

/-! ### lex (Read.hs:45-114) -/

abbrev Str := List Char

/-- The readers that always end. -/
abbrev Lex := Str → List (Str × Str)

def isSingle (c : Char) : Bool := c ∈ ",;()[]\x7b\x7d_`".toList
def isSym (c : Char) : Bool := c ∈ "!@#$%&*+./<=>?\\^|:-~".toList
def isIdChar (c : Char) : Bool := isAlphaNum c || c ∈ "_'".toList

def nonnull (p : Char → Bool) : Lex := fun s =>
  match s.span p with
  | ([], _) => []
  | (cs, t) => [(cs, t)]

def lexDigits : Lex := nonnull isDigit

def isCharName (c : Char) : Bool := isUpper c || isDigit c

def lexEsc : Lex
  | [] => []
  | '^' :: c :: s => if '@' ≤ c && c ≤ '_' then [(['^', c], s)] else []
  | c :: s =>
    if c ∈ "abfnrtv\\\"'".toList then [([c], s)]
    else if c = 'o' then [('o' :: (s.span isOctDigit).1, (s.span isOctDigit).2)]
    else if c = 'x' then [('x' :: (s.span isHexDigit).1, (s.span isHexDigit).2)]
    else if isDigit c then [(c :: s).span isDigit]
    else if isUpper c then [(c :: s).span isCharName]
    else []

def lexLitChar : Lex
  | [] => []
  | '\\' :: s => (lexEsc s).map fun (t, s) => ('\\' :: t, s)
  | c :: s => [([c], s)]

def lexStrItem : Lex
  | '\\' :: '&' :: s => [("\\&".toList, s)]
  | '\\' :: c :: s =>
    if isSpace c then
      match s.dropWhile isSpace with
      | '\\' :: t => [("\\&".toList, t)]
      | _ => []
    else lexLitChar ('\\' :: c :: s)
  | s => lexLitChar s

-- an item takes a character (`lexStrItem_length`), so the test for termination never fails
def lexString : Lex
  | '"' :: s => [(['"'], s)]
  | s => (lexStrItem s).flatMap fun (ch, t) =>
    if _h : t.length < s.length then (lexString t).map fun (str, u) => (ch ++ str, u) else []
  termination_by s => s.length

def lexExp : Lex
  | e :: s =>
    if e = 'e' ∨ e = 'E' then
      (match s with
        | c :: t => if c = '+' ∨ c = '-' then (lexDigits t).map fun (ds, u) => (e :: c :: ds, u) else []
        | [] => []) ++
        (lexDigits s).map fun (ds, t) => (e :: ds, t)
    else [([], e :: s)]
  | [] => [([], [])]

def lexFracExp : Lex
  | '.' :: c :: cs =>
    if isDigit c then
      (lexDigits (c :: cs)).flatMap fun (ds, t) => (lexExp t).map fun (e, u) => ('.' :: (ds ++ e), u)
    else lexExp ('.' :: c :: cs)
  | s => lexExp s

def lex : Lex
  | [] => [([], [])]
  | c :: s =>
    if isSpace c then lex (s.dropWhile isSpace)
    else if c = '\'' then
      (lexLitChar s).flatMap fun (ch, t) =>
        match t with
        | '\'' :: t => if ch ≠ ['\''] then [('\'' :: (ch ++ ['\'']), t)] else []
        | _ => []
    else if c = '"' then (lexString s).map fun (str, t) => ('"' :: str, t)
    else if isSingle c then [([c], s)]
    else if isSym c then [(c :: (s.span isSym).1, (s.span isSym).2)]
    else if isAlpha c then [(c :: (s.span isIdChar).1, (s.span isIdChar).2)]
    else if isDigit c then
      (lexFracExp (s.span isDigit).2).map fun (fe, t) => (c :: ((s.span isDigit).1 ++ fe), t)
    else []
  termination_by s => s.length
  decreasing_by
    have hlen := (List.dropWhile_suffix isSpace (l := s)).length_le
    rw [List.length_cons]
    omega

/-! ### ReadS, readParen (Read.hs:12, 33-37) -/

section
variable {α β : Type}

abbrev ReadS (α : Type) := Str → Option (List (α × Str))

/-- The comprehension `[ y | x <- xs, y <- k x ]`. -/
def comp (xs : List α) (k : α → Option (List β)) : Option (List β) :=
  (xs.mapM k).map List.flatten

/-- `n` bounds the parentheses that are opened. -/
def readParen (n : ℕ) (b : Bool) (g : ReadS α) : ReadS α :=
  if b then mandatory n else fun r => readParen.optional n r
where
  optional : ℕ → ReadS α
    | n, r => do return (← g r) ++ (← mandatory n r)
  mandatory : ℕ → ReadS α
    | 0, _ => none
    | n + 1, r => comp (lex r) fun (tok, s) =>
      if tok = ['('] then do
        comp ((← g s) ++ (← mandatory n s)) fun (x, t) =>
          return ((lex t).filter fun (tok, _) => tok = [')']).map fun (_, u) => (x, u)
      else return []

end

end Jhc.Text

/-!
# Tokens of a text

What the lexer takes from a text, and texts that are made of whole tokens.
-/

namespace Jhc.Text

/-! ### The lexer takes something -/

theorem length_span_le (p : Char → Bool) (s : Str) : (s.span p).2.length ≤ s.length := by
  rw [List.span_eq_takeWhile_dropWhile]
  exact (List.dropWhile_suffix p).length_le

theorem nonnull_length {p : Char → Bool} {s cs t : Str} (h : (cs, t) ∈ nonnull p s) : t.length < s.length := by
  have happ : (s.span p).1 ++ (s.span p).2 = s := by
    rw [List.span_eq_takeWhile_dropWhile, List.takeWhile_append_dropWhile]
  unfold nonnull at h
  split at h
  · cases h
  · next c u hne heq =>
    obtain ⟨rfl, rfl⟩ : cs = c ∧ t = u := by simpa using h
    rw [heq] at happ
    have hpos : 0 < cs.length := List.length_pos_iff.2 hne
    rw [← happ]
    simp only [List.length_append]
    omega

theorem lexEsc_length {s cs t : Str} (h : (cs, t) ∈ lexEsc s) : t.length < s.length := by
  unfold lexEsc at h
  split at h
  · cases h
  · split at h
    · obtain ⟨-, rfl⟩ := Prod.mk.inj (List.mem_singleton.1 h)
      simp only [List.length_cons]
      omega
    · cases h
  · next c s _ =>
    have hcons : (c :: s).length = s.length + 1 := rfl
    have hoct := length_span_le isOctDigit s
    have hhex := length_span_le isHexDigit s
    split_ifs at h with _ _ _ hdigit hupper
    · obtain ⟨-, rfl⟩ := Prod.mk.inj (List.mem_singleton.1 h)
      omega
    · obtain ⟨-, rfl⟩ := Prod.mk.inj (List.mem_singleton.1 h)
      omega
    · obtain ⟨-, rfl⟩ := Prod.mk.inj (List.mem_singleton.1 h)
      omega
    · have hspan := length_span_le isDigit s
      rw [List.mem_singleton, List.span_eq_takeWhile_dropWhile, List.dropWhile_cons, if_pos hdigit] at h
      obtain ⟨-, rfl⟩ := Prod.mk.inj h
      rw [List.span_eq_takeWhile_dropWhile] at hspan
      simp only at hspan
      omega
    · have hspan := length_span_le isCharName s
      have hname : isCharName c = true := by simp [isCharName, hupper]
      rw [List.mem_singleton, List.span_eq_takeWhile_dropWhile, List.dropWhile_cons, if_pos hname] at h
      obtain ⟨-, rfl⟩ := Prod.mk.inj h
      rw [List.span_eq_takeWhile_dropWhile] at hspan
      simp only at hspan
      omega
    · cases h

theorem lexLitChar_length {s ch t : Str} (h : (ch, t) ∈ lexLitChar s) : t.length < s.length := by
  unfold lexLitChar at h
  split at h
  · cases h
  · next s =>
    obtain ⟨⟨cs, u⟩, hmem, heq⟩ := List.mem_map.1 h
    obtain ⟨-, rfl⟩ := Prod.mk.inj heq
    have hlen := lexEsc_length hmem
    rw [List.length_cons]
    omega
  · obtain ⟨-, rfl⟩ := Prod.mk.inj (List.mem_singleton.1 h)
    simp

theorem lexStrItem_length {s ch t : Str} (h : (ch, t) ∈ lexStrItem s) : t.length < s.length := by
  unfold lexStrItem at h
  split at h
  · obtain ⟨-, rfl⟩ := Prod.mk.inj (List.mem_singleton.1 h)
    simp only [List.length_cons]
    omega
  · next c s _ =>
    split at h
    · split at h
      · next u hdrop =>
        obtain ⟨-, rfl⟩ := Prod.mk.inj (List.mem_singleton.1 h)
        have hlen := (List.dropWhile_suffix isSpace (l := s)).length_le
        rw [hdrop] at hlen
        simp only [List.length_cons] at hlen ⊢
        omega
      · cases h
    · exact lexLitChar_length h
  · exact lexLitChar_length h

theorem lexString_length (s : Str) {str u : Str} (h : (str, u) ∈ lexString s) : u.length < s.length := by
  induction s using lexString.induct generalizing str u with
  | case1 s =>
    rw [lexString] at h
    obtain ⟨-, rfl⟩ := Prod.mk.inj (List.mem_singleton.1 h)
    simp
  | case2 s hne ih =>
    rw [lexString.eq_def] at h
    split at h
    · exact absurd rfl (hne _)
    · obtain ⟨⟨ch, t⟩, hitem, h⟩ := List.mem_flatMap.1 h
      have hlen := lexStrItem_length hitem
      simp only [dif_pos hlen] at h
      obtain ⟨⟨str', u'⟩, hrest, heq⟩ := List.mem_map.1 h
      obtain ⟨-, rfl⟩ : ch ++ str' = str ∧ u' = u := Prod.mk.inj heq
      have hu := ih t hlen hrest
      omega

theorem lexExp_length {s e u : Str} (h : (e, u) ∈ lexExp s) : u.length ≤ s.length := by
  unfold lexExp at h
  split at h
  · next c s =>
    split_ifs at h
    · rcases List.mem_append.1 h with h | h
      · split at h
        · split_ifs at h
          · obtain ⟨⟨ds, u'⟩, hmem, heq⟩ := List.mem_map.1 h
            obtain ⟨-, rfl⟩ := Prod.mk.inj heq
            have hlen := nonnull_length hmem
            simp only [List.length_cons]
            omega
          · cases h
        · cases h
      · obtain ⟨⟨ds, u'⟩, hmem, heq⟩ := List.mem_map.1 h
        obtain ⟨-, rfl⟩ := Prod.mk.inj heq
        have hlen := nonnull_length hmem
        simp only [List.length_cons]
        omega
    · obtain ⟨-, rfl⟩ := Prod.mk.inj (List.mem_singleton.1 h)
      exact Nat.le_refl _
  · obtain ⟨-, rfl⟩ := Prod.mk.inj (List.mem_singleton.1 h)
    exact Nat.le_refl _

theorem lexFracExp_length {s fe u : Str} (h : (fe, u) ∈ lexFracExp s) : u.length ≤ s.length := by
  unfold lexFracExp at h
  split at h
  · split_ifs at h
    · obtain ⟨⟨ds, t⟩, hds, h⟩ := List.mem_flatMap.1 h
      obtain ⟨⟨e, u'⟩, hmem, heq⟩ := List.mem_map.1 h
      obtain ⟨-, rfl⟩ := Prod.mk.inj heq
      have hlen := nonnull_length hds
      have hexp := lexExp_length hmem
      simp only [List.length_cons] at hlen ⊢
      omega
    · exact lexExp_length h
  · exact lexExp_length h

theorem lex_dropWhile (s : Str) : lex (s.dropWhile isSpace) = lex s := by
  cases s with
  | nil => rfl
  | cons c s =>
    rw [List.dropWhile_cons]
    split
    · next hspace =>
      conv_rhs => rw [lex.eq_def]
      simp only [if_pos hspace]
    · rfl

theorem lex_token_length {c : Char} {s tok u : Str} (hspace : isSpace c = false) (h : (tok, u) ∈ lex (c :: s)) :
    u.length ≤ s.length := by
  rw [lex.eq_def] at h
  simp only [hspace, Bool.false_eq_true, if_false] at h
  have hspan := fun p => length_span_le p s
  split_ifs at h
  · obtain ⟨⟨ch, t⟩, hch, h⟩ := List.mem_flatMap.1 h
    have hlen := lexLitChar_length hch
    dsimp only at h
    split at h
    · split_ifs at h
      · obtain ⟨-, rfl⟩ := Prod.mk.inj (List.mem_singleton.1 h)
        rw [List.length_cons] at hlen
        omega
      · cases h
    · cases h
  · obtain ⟨⟨str, t⟩, hstr, heq⟩ := List.mem_map.1 h
    obtain ⟨-, rfl⟩ := Prod.mk.inj heq
    exact Nat.le_of_lt (lexString_length _ hstr)
  · obtain ⟨-, rfl⟩ := Prod.mk.inj (List.mem_singleton.1 h)
    exact Nat.le_refl _
  · obtain ⟨-, rfl⟩ := Prod.mk.inj (List.mem_singleton.1 h)
    exact hspan isSym
  · obtain ⟨-, rfl⟩ := Prod.mk.inj (List.mem_singleton.1 h)
    exact hspan isIdChar
  · obtain ⟨⟨fe, t⟩, hfe, heq⟩ := List.mem_map.1 h
    obtain ⟨-, rfl⟩ := Prod.mk.inj heq
    exact Nat.le_trans (lexFracExp_length hfe) (hspan isDigit)
  · cases h

theorem lex_length {s tok u : Str} (h : (tok, u) ∈ lex s) (hne : s ≠ []) : u.length < s.length := by
  have hdrop := (List.dropWhile_suffix isSpace (l := s)).length_le
  rw [← lex_dropWhile] at h
  cases hs : s.dropWhile isSpace with
  | nil =>
    rw [hs, lex] at h
    obtain ⟨-, rfl⟩ := Prod.mk.inj (List.mem_singleton.1 h)
    exact List.length_pos_iff.2 hne
  | cons c t =>
    have hspace : isSpace c = false := by
      have hhead := List.head?_dropWhile_not isSpace s
      rw [hs] at hhead
      simpa using hhead
    rw [hs] at h hdrop
    have hlen := lex_token_length hspace h
    rw [List.length_cons] at hdrop
    omega

theorem lex_space (s : Str) : lex (' ' :: s) = lex s := by
  rw [lex.eq_def]
  simp only [if_pos (show isSpace ' ' = true from by decide)]
  exact lex_dropWhile s

/-! ### Whole tokens -/

/-- Whole tokens are taken from the first text until the second is left. -/
inductive Lexes : Str → Str → Prop
  | refl (s : Str) : Lexes s s
  | step {u tok u' s : Str} (hlex : lex u = [(tok, u')]) (hne : u ≠ []) (h : Lexes u' s) : Lexes u s

theorem Lexes.trans {u t s : Str} (h : Lexes u t) (h' : Lexes t s) : Lexes u s := by
  induction h with
  | refl => exact h'
  | step hlex hne _ ih => exact .step hlex hne (ih h')

theorem Lexes.length_le {u s : Str} (h : Lexes u s) : s.length ≤ u.length := by
  induction h with
  | refl => exact Nat.le_refl _
  | step hlex hne _ ih =>
    have hlen := lex_length (hlex ▸ List.mem_singleton.2 rfl) hne
    omega

theorem Lexes.linear {u t s : Str} (h : Lexes u t) (h' : Lexes u s) : Lexes t s ∨ Lexes s t := by
  induction h with
  | refl => exact .inl h'
  | step hlex hne hrest ih =>
    cases h' with
    | refl => exact .inr (.step hlex hne hrest)
    | step hlex' hne' h' =>
      obtain ⟨-, rfl⟩ := Prod.mk.inj (List.singleton_inj.1 (hlex.symm.trans hlex'))
      exact ih h'

theorem Lexes.spaced {w s : Str} (hw : w ≠ []) (h : Lexes (w ++ s) s) : Lexes (' ' :: (w ++ s)) s := by
  generalize hu : w ++ s = u at h
  cases h with
  | refl =>
    have hlen := congrArg List.length hu
    rw [List.length_append] at hlen
    exact absurd (List.length_eq_zero_iff.1 (by omega)) hw
  | step hlex hne h => exact .step ((lex_space _).trans hlex) (by simp) h

theorem Lexes.unspaced {w s : Str} (hw : w ≠ []) (h : Lexes (' ' :: (w ++ s)) s) : Lexes (w ++ s) s := by
  generalize hu : ' ' :: (w ++ s) = u at h
  cases h with
  | refl =>
    have hlen := congrArg List.length hu
    rw [List.length_cons, List.length_append] at hlen
    omega
  | step hlex hne h =>
    rw [← hu, lex_space] at hlex
    exact .step hlex (by simp [hw]) h

/-- Nothing follows, or a space, or a token of one character. -/
def Stops (s : Str) : Prop := ∀ c, s.head? = some c → isSpace c = true ∨ isSingle c = true ∧ c ≠ '_'

/-- One or more tokens, the last of which ends where the text does. -/
def Whole (w : Str) : Prop := w ≠ [] ∧ ∀ s, Stops s → Lexes (w ++ s) s

/-- The text that follows does not extend the last token. -/
def Ends (w s : Str) : Prop := Stops s ∨ Lexes (w ++ s) s

theorem Whole.lexes {w s : Str} (hw : Whole w) (h : Ends w s) : Lexes (w ++ s) s :=
  h.elim (hw.2 s) id

theorem stops_nil : Stops [] := fun _ h => nomatch h

theorem stops_cons {c : Char} (s : Str) (hc : isSpace c = true ∨ isSingle c = true ∧ c ≠ '_') : Stops (c :: s) := by
  rintro _ ⟨⟩
  exact hc

theorem stops_space (s : Str) : Stops (' ' :: s) := stops_cons s (by decide)

theorem stops_close (s : Str) : Stops (')' :: s) := stops_cons s (by decide)

theorem lex_single {c : Char} (s : Str) (hspace : isSpace c = false) (hc : isSingle c = true) (hq : c ≠ '\'' ∧ c ≠ '"') :
    lex (c :: s) = [([c], s)] := by
  rw [lex.eq_def]
  simp [hspace, hc, hq.1, hq.2]

theorem lex_open (s : Str) : lex ('(' :: s) = [(['('], s)] :=
  lex_single s (by decide) (by decide) (by decide)

theorem lex_close (s : Str) : lex (')' :: s) = [([')'], s)] :=
  lex_single s (by decide) (by decide) (by decide)

/-- An identifier in the eyes of the lexer. -/
def isReadable : Str → Bool
  | c :: cs => isAlpha c && cs.all isIdChar
  | [] => false

theorem not_mem_of_isAlpha {c : Char} {t : Str} (hc : isAlpha c = true) (ht : t.all (fun d => !isAlpha d) = true) :
    c ∉ t := by
  intro hmem
  have hd := List.all_eq_true.1 ht c hmem
  rw [hc] at hd
  cases hd

theorem lex_alpha {c : Char} (hc : isAlpha c = true) (s : Str) :
    lex (c :: s) = [(c :: s.takeWhile isIdChar, s.dropWhile isIdChar)] := by
  have hspace : isSpace c = false := decide_eq_false (not_mem_of_isAlpha hc (by decide))
  have hsingle : isSingle c = false := decide_eq_false (not_mem_of_isAlpha hc (by decide))
  have hsym : isSym c = false := decide_eq_false (not_mem_of_isAlpha hc (by decide))
  have hquote : c ≠ '\'' ∧ c ≠ '"' := by
    constructor <;> (rintro rfl; revert hc; decide)
  rw [lex.eq_def]
  simp [hspace, hsingle, hsym, hquote.1, hquote.2, hc, List.span_eq_takeWhile_dropWhile]

theorem lex_readable {name : Str} (h : isReadable name = true) (s : Str) :
    lex (name ++ s) = [(name ++ s.takeWhile isIdChar, s.dropWhile isIdChar)] := by
  match name, h with
  | c :: cs, h =>
    obtain ⟨hc, hcs⟩ := Bool.and_eq_true_iff.1 h
    rw [List.cons_append, lex_alpha hc, List.takeWhile_append_of_pos (List.all_eq_true.1 hcs),
      List.dropWhile_append_of_pos (List.all_eq_true.1 hcs), List.cons_append]

theorem Stops.not_idChar {s : Str} (h : Stops s) {c : Char} (hc : s.head? = some c) : isIdChar c = false := by
  rcases h c hc with hspace | ⟨hsingle, hne⟩
  · have hall : (" \t\n\r\x0c\x0b\xa0".toList.all fun d => !isIdChar d) = true := by decide
    simpa using List.all_eq_true.1 hall c (of_decide_eq_true hspace)
  · have hall : (",;()[]\x7b\x7d_`".toList.all fun d => d == '_' || !isIdChar d) = true := by decide
    simpa [hne] using List.all_eq_true.1 hall c (of_decide_eq_true hsingle)

theorem lex_readable_stops {name s : Str} (h : isReadable name = true) (hs : Stops s) :
    lex (name ++ s) = [(name, s)] := by
  rw [lex_readable h]
  cases s with
  | nil => simp
  | cons c s =>
    have hc := hs.not_idChar (List.head?_cons ..)
    simp [hc]

theorem lex_name {name s : Str} (h : isReadable name = true) (hs : Lexes (name ++ s) s) :
    lex (name ++ s) = [(name, s)] := by
  have hlex := lex_readable h s
  have happ := s.takeWhile_append_dropWhile (p := isIdChar)
  have htake : s.takeWhile isIdChar = [] := by
    generalize hu : name ++ s = u at hs hlex
    cases hs with
    | refl =>
      have hname : name = [] := by simpa using hu
      rw [hname] at h
      cases h
    | step hlex' hne hrest =>
      obtain ⟨-, rfl⟩ := Prod.mk.inj (List.singleton_inj.1 (hlex.symm.trans hlex'))
      have hlen := hrest.length_le
      have hsum := congrArg List.length happ
      rw [List.length_append] at hsum
      exact List.length_eq_zero_iff.1 (by omega)
  rw [htake, List.nil_append] at happ
  rw [hlex, htake, happ, List.append_nil]

end Jhc.Text
