import Jhc.FrontEnd.Lex.Layout

/-!
# Which lets are renamed

In the grammar a `let` is either that of an expression, with bindings up to its `in`, or that
of a statement or a guard, with no `in`. One counter, from the right, tells them apart as long
as no bindings contain a `let` of the second kind.
-/

namespace Jhc.FrontEnd.Lex

abbrev Tokens := List (Token Lexeme)

/-! ### The lets of the grammar -/

def Token.IsText (s : String) : Token Lexeme → Prop
  | .token l => l.text = s
  | _ => False

/-- A token stream with its lets as the grammar reads them: `letIn` is a `let` with its bindings
and its `in` (what follows the `in` need not be told apart), `letOnly` a `let` that has no `in`. -/
inductive Lets where
  | nil
  | other (t : Token Lexeme) (hlet : ¬ t.IsText "let") (hin : ¬ t.IsText "in") (rest : Lets)
  | letOnly (l : Lexeme) (hlet : l.text = "let") (rest : Lets)
  | letIn (l : Lexeme) (hlet : l.text = "let") (bindings : Lets) (i : Lexeme) (hin : i.text = "in") (rest : Lets)

namespace Lets

def tokens : Lets → Tokens
  | nil => []
  | other t _ _ rest => t :: rest.tokens
  | letOnly l _ rest => .token l :: rest.tokens
  | letIn l _ bindings i _ rest => .token l :: (bindings.tokens ++ .token i :: rest.tokens)

/-- The stream in which exactly the lets without `in` are renamed. -/
def renamed : Lets → Tokens
  | nil => []
  | other t _ _ rest => t :: rest.renamed
  | letOnly l _ rest => .token l.letHash :: rest.renamed
  | letIn l _ bindings i _ rest => .token l :: (bindings.renamed ++ .token i :: rest.renamed)

/-- No `let` lacks an `in`. -/
def AllIn : Lets → Prop
  | nil => True
  | other _ _ _ rest => rest.AllIn
  | letOnly .. => False
  | letIn _ _ bindings _ _ rest => bindings.AllIn ∧ rest.AllIn

/-- No bindings before an `in` contain a `let` that lacks one. -/
def Separate : Lets → Prop
  | nil => True
  | other _ _ _ rest => rest.Separate
  | letOnly _ _ rest => rest.Separate
  | letIn _ _ bindings _ _ rest => bindings.AllIn ∧ rest.Separate

attribute [local grind =] tokens renamed

instance decidableAllIn : (s : Lets) → Decidable s.AllIn
  | nil => .isTrue trivial
  | other _ _ _ rest => decidableAllIn rest
  | letOnly .. => .isFalse id
  | letIn _ _ bindings _ _ rest => @instDecidableAnd _ _ (decidableAllIn bindings) (decidableAllIn rest)

instance decidableSeparate : (s : Lets) → Decidable s.Separate
  | nil => .isTrue trivial
  | other _ _ _ rest => decidableSeparate rest
  | letOnly _ _ rest => decidableSeparate rest
  | letIn _ _ bindings _ _ rest => @instDecidableAnd _ _ (decidableAllIn bindings) (decidableSeparate rest)

theorem length_renamed (s : Lets) : s.renamed.length = s.tokens.length := by
  induction s with
  | nil => rfl
  | other _ _ _ _ ih => simp [renamed, tokens, ih]
  | letOnly _ _ _ ih => simp [renamed, tokens, ih]
  | letIn _ _ _ _ _ _ ihb ihr => simp [renamed, tokens, ihb, ihr]

theorem renamed_eq_of_allIn {s : Lets} (h : s.AllIn) : s.renamed = s.tokens := by
  induction s with
  | nil => rfl
  | other _ _ _ _ ih => rw [renamed, tokens, ih h]
  | letOnly => exact h.elim
  | letIn _ _ _ _ _ _ ihb ihr => rw [renamed, tokens, ihb h.1, ihr h.2]

end Lets

/-! ### The scan -/

/-- What the scan makes of one token, given the counter: the counter to its left, the token. -/
def scan1 (n : ℕ) : Token Lexeme → ℕ × Token Lexeme
  | .token l =>
    if l.text = "let" then if n = 0 then (0, .token l.letHash) else (n - 1, .token l)
    else if l.text = "in" then (n + 1, .token l)
    else (n, .token l)
  | t => (n, t)

/-- The scan of a segment whose right end is reached with counter `n`. -/
def scan : Tokens → ℕ → ℕ × Tokens
  | [], n => (n, [])
  | t :: ts, n => ((scan1 (scan ts n).1 t).1, (scan1 (scan ts n).1 t).2 :: (scan ts n).2)

attribute [local grind =] scan

theorem length_scan (ts : Tokens) (n : ℕ) : (scan ts n).2.length = ts.length := by
  induction ts with
  | nil => rfl
  | cons t ts ih => rw [scan, List.length_cons, List.length_cons, ih]

theorem scan_append (ts us : Tokens) (n : ℕ) :
    scan (ts ++ us) n = ((scan ts (scan us n).1).1, (scan ts (scan us n).1).2 ++ (scan us n).2) := by
  induction ts with
  | nil => rfl
  | cons t ts ih => rw [List.cons_append, scan, ih, scan, List.cons_append]

theorem f_scan1 (n : ℕ) (t : Token Lexeme) (xs rs : Tokens) :
    fixupLets.f n (t :: xs) rs = fixupLets.f (scan1 n t).1 xs ((scan1 n t).2 :: rs) := by
  cases t with
  | token l =>
    by_cases hlet : l.text = "let"
    · cases n with
      | zero => rw [fixupLets.f, if_pos hlet, scan1, if_pos hlet, if_pos rfl]
      | succ n =>
        rw [fixupLets.f, if_pos hlet, scan1, if_pos hlet, if_neg (Nat.succ_ne_zero n)]
        rfl
    · by_cases hin : l.text = "in"
      · simp [fixupLets.f, scan1, hin]
      · simp [fixupLets.f, scan1, hlet, hin]
  | vlCurly l c => rfl
  | nl c => rfl

theorem f_reverse (ts : Tokens) (n : ℕ) (xs rs : Tokens) :
    fixupLets.f n (ts.reverse ++ xs) rs = fixupLets.f (scan ts n).1 xs ((scan ts n).2 ++ rs) := by
  induction ts generalizing xs rs with
  | nil => rfl
  | cons t ts ih =>
    rw [List.reverse_cons, List.append_assoc, ih, List.singleton_append, f_scan1]
    rfl

theorem fixupLets_eq (ts : Tokens) : fixupLets ts = (scan ts 0).2 := by
  have hrev := f_reverse ts 0 [] []
  rw [List.append_nil, List.append_nil] at hrev
  rw [fixupLets, hrev, fixupLets.f]

/-! ### The scan of lets -/

namespace Lets

theorem scan1_other {t : Token Lexeme} (hlet : ¬ t.IsText "let") (hin : ¬ t.IsText "in") (n : ℕ) : scan1 n t = (n, t) := by
  cases t with
  | token l => exact (if_neg hlet).trans (if_neg hin)
  | vlCurly l c => rfl
  | nl c => rfl

theorem scan1_in {i : Lexeme} (hin : i.text = "in") (n : ℕ) : scan1 n (.token i) = (n + 1, .token i) := by
  have hlet : i.text ≠ "let" := by
    rw [hin]
    decide
  rw [scan1, if_neg hlet, if_pos hin]

theorem scan1_let {l : Lexeme} (hlet : l.text = "let") (n : ℕ) : scan1 (n + 1) (.token l) = (n, .token l) := by
  rw [scan1, if_pos hlet, if_neg (Nat.succ_ne_zero n)]
  rfl

theorem scan_letIn {l i : Lexeme} (hin : i.text = "in") (b r : Tokens) (n : ℕ) :
    (scan (.token l :: (b ++ .token i :: r)) n).2 =
      (scan1 (scan b ((scan r n).1 + 1)).1 (.token l)).2 :: ((scan b ((scan r n).1 + 1)).2 ++ .token i :: (scan r n).2) := by
  rw [scan, scan_append, scan, scan1_in hin]

/-- Where every `let` has its `in`, nothing is renamed and the counter comes back. -/
theorem scan_allIn {s : Lets} (h : s.AllIn) (n : ℕ) : scan s.tokens n = (n, s.tokens) := by
  induction s generalizing n with
  | nil => rfl
  | other t hlet hin rest ih => rw [tokens, scan, ih h, scan1_other hlet hin]
  | letOnly => exact h.elim
  | letIn l hlet bindings i hin rest ihb ihr =>
    rw [tokens, scan, scan_append, scan, ihr h.2, scan1_in hin, ihb h.1, scan1_let hlet]

/-- Under an `in` the scan takes the last `let` that lacks its own for the one of that `in`. -/
theorem scan_succ_ne {s : Lets} (h : ¬ s.AllIn) (n : ℕ) : (scan s.tokens (n + 1)).2 ≠ s.renamed := by
  induction s generalizing n with
  | nil => exact absurd trivial h
  | other t hlet hin rest ih =>
    intro heq
    rw [tokens, scan, renamed] at heq
    exact ih h n (List.cons.inj heq).2
  | letOnly l hlet rest ih =>
    intro heq
    rw [tokens, scan, renamed] at heq
    obtain ⟨hhead, htail⟩ := List.cons.inj heq
    by_cases hrest : rest.AllIn
    · rw [scan_allIn hrest, scan1_let hlet] at hhead
      have htext : l.text = "let#" := congrArg Lexeme.text (Token.token.inj hhead)
      rw [hlet] at htext
      exact absurd htext (by decide)
    · exact ih hrest n htail
  | letIn l hlet bindings i hin rest ihb ihr =>
    intro heq
    rw [tokens, scan_letIn hin, renamed] at heq
    have hlen : (scan bindings.tokens ((scan rest.tokens (n + 1)).1 + 1)).2.length = bindings.renamed.length := by
      rw [length_scan, length_renamed]
    obtain ⟨hb, hr⟩ := List.append_inj (List.cons.inj heq).2 hlen
    by_cases hrest : rest.AllIn
    · have hbind : ¬ bindings.AllIn := fun hbind => h ⟨hbind, hrest⟩
      exact ihb hbind _ hb
    · exact ihr hrest n (List.cons.inj hr).2

/-- Where the lets are separate the scan ends with the counter at zero. -/
theorem scan_separate {s : Lets} (h : s.Separate) : scan s.tokens 0 = (0, s.renamed) := by
  induction s with
  | nil => rfl
  | other t hlet hin rest ih => rw [tokens, scan, ih h, scan1_other hlet hin, renamed]
  | letOnly l hlet rest ih =>
    rw [tokens, scan, ih h, scan1, if_pos hlet]
    rfl
  | letIn l hlet bindings i hin rest _ ihr =>
    rw [tokens, scan, scan_append, scan, ihr h.2, scan1_in hin, scan_allIn h.1, scan1_let hlet, renamed,
      renamed_eq_of_allIn h.1]

theorem scan_zero_ne {s : Lets} (h : ¬ s.Separate) : (scan s.tokens 0).2 ≠ s.renamed := by
  induction s with
  | nil => exact absurd trivial h
  | other t hlet hin rest ih =>
    intro heq
    rw [tokens, scan, renamed] at heq
    exact ih h (List.cons.inj heq).2
  | letOnly l hlet rest ih =>
    intro heq
    rw [tokens, scan, renamed] at heq
    exact ih h (List.cons.inj heq).2
  | letIn l hlet bindings i hin rest _ ihr =>
    intro heq
    rw [tokens, scan_letIn hin, renamed] at heq
    have hlen : (scan bindings.tokens ((scan rest.tokens 0).1 + 1)).2.length = bindings.renamed.length := by
      rw [length_scan, length_renamed]
    obtain ⟨hb, hr⟩ := List.append_inj (List.cons.inj heq).2 hlen
    by_cases hrest : rest.Separate
    · have hbind : ¬ bindings.AllIn := fun hbind => h ⟨hbind, hrest⟩
      exact scan_succ_ne hbind _ hb
    · exact ihr hrest (List.cons.inj hr).2

end Lets

/-- The renaming is that of the grammar exactly where no bindings that end in an `in` contain a
`let` without one. -/
theorem fixupLets_iff (s : Lets) : fixupLets s.tokens = s.renamed ↔ s.Separate := by
  rw [fixupLets_eq]
  constructor
  · intro heq
    by_contra hsep
    exact Lets.scan_zero_ne hsep heq
  · intro hsep
    rw [Lets.scan_separate hsep]

/-! ### A let statement in the bindings of a let -/

def word (s : String) : Lexeme := ⟨⟨"M.hs", 1, 1⟩, .LReservedId, s⟩

def symbol (s : String) (rest : Lets) (hlet : s ≠ "let" := by decide) (hin : s ≠ "in" := by decide) : Lets :=
  .other (.token (word s)) hlet hin rest

/-- `f = let g = do { let { x = h } ; x } in g` -/
def letInDo : Lets :=
  .other (.vlCurly (word "where") 1) id id (.other (.nl 1) id id (symbol "f" (symbol "=" (.letIn (word "let") rfl
    (.other (.vlCurly (word "let") 9) id id (symbol "g" (symbol "=" (symbol "do" (symbol "\x7b" (.letOnly (word "let") rfl
      (symbol "\x7b" (symbol "x" (symbol "=" (symbol "h" (symbol "\x7d" (symbol ";" (symbol "x" (symbol "\x7d" .nil))))))))))))))
    (word "in") rfl (symbol "g" .nil)))))

theorem letInDo_swapped : fixupLets letInDo.tokens ≠ letInDo.renamed ∧
    (fixupLets letInDo.tokens)[4]? = some (.token (word "let#")) ∧
    (fixupLets letInDo.tokens)[10]? = some (.token (word "let")) := by
  decide +kernel

end Jhc.FrontEnd.Lex
