import Jhc.FrontEnd.Lex.Layout
import Jhc.Lib.Lookup

/-!
# What the layout algorithm writes

The output, once the inserted lexemes are told apart from those of the source, has all braces,
brackets and keywords in pairs, but for one kind of lexeme: an `else` closes no block and is
written wherever it stands, also where the `if` it belongs to is not the innermost open pair.
-/

namespace Jhc.FrontEnd.Lex

/-! ### Outputs -/

inductive Item where
  | source (l : Lexeme)
  | inserted (l : Lexeme)

namespace Item

def lexeme : Item → Lexeme
  | source l => l
  | inserted l => l

/-- How it is written: a `let#` of the source as `let`. -/
def out : Item → Lexeme
  | source l => written l
  | inserted l => l

def source? : Item → Option Lexeme
  | source l => some l
  | inserted _ => none

/-- Neither opens nor closes anything. -/
def Plain : Item → Prop
  | source l => layoutBrackets.lookup l.text = none ∧ closingBrackets.lookup l.text = none ∧ l.text ≠ "else"
  | inserted l => l.text = ";"

end Item

def sources (items : List Item) : List Lexeme := items.filterMap Item.source?

@[simp] theorem sources_nil : sources [] = [] := rfl
@[simp] theorem sources_source (l : Lexeme) (xs : List Item) : sources (.source l :: xs) = l :: sources xs := rfl
@[simp] theorem sources_inserted (l : Lexeme) (xs : List Item) : sources (.inserted l :: xs) = sources xs := rfl

@[simp] theorem sources_append (xs ys : List Item) : sources (xs ++ ys) = sources xs ++ sources ys :=
  List.filterMap_append

/-- All pairs are nested, but for `n` lexemes `else` that stand outside of their pair. -/
inductive Nested : ℕ → List Item → Prop
  | nil : Nested 0 []
  | plain {n xs} (x : Item) (hx : x.Plain) (hxs : Nested n xs) : Nested n (x :: xs)
  | stray {n xs} (e : Lexeme) (he : e.text = "else") (hxs : Nested n xs) : Nested (n + 1) (.source e :: xs)
  | block {m n xs ys} (o c : Lexeme) (ho : o.text = "\x7b") (hc : c.text = "\x7d") (hxs : Nested m xs) (hys : Nested n ys) :
      Nested (m + n) (.inserted o :: (xs ++ .inserted c :: ys))
  | pair {m n xs ys} (o c : Lexeme) (hoc : (o.text, c.text) ∈ layoutBrackets) (hif : c.text ≠ "then")
      (hxs : Nested m xs) (hys : Nested n ys) : Nested (m + n) (.source o :: (xs ++ .source c :: ys))
  | cond {k m n xs ys zs} (i t e : Lexeme) (hi : i.text = "if") (ht : t.text = "then") (he : e.text = "else")
      (hxs : Nested k xs) (hys : Nested m ys) (hzs : Nested n zs) :
      Nested (k + m + n) (.source i :: (xs ++ .source t :: (ys ++ .source e :: zs)))

theorem Nested.append {m n : ℕ} {xs ys : List Item} (hxs : Nested m xs) (hys : Nested n ys) : Nested (m + n) (xs ++ ys) := by
  induction hxs with
  | nil => rwa [Nat.zero_add]
  | plain x hx _ ih => exact .plain x hx ih
  | stray e he _ ih =>
    rw [Nat.add_right_comm]
    exact .stray e he ih
  | block o c ho hc h _ _ ih =>
    rw [Nat.add_assoc, List.cons_append, List.append_assoc]
    exact .block o c ho hc h ih
  | pair o c hoc hif h _ _ ih =>
    rw [Nat.add_assoc, List.cons_append, List.append_assoc]
    exact .pair o c hoc hif h ih
  | cond i t e hi ht he h h' _ _ _ ih =>
    rw [Nat.add_assoc, List.cons_append, List.append_assoc, List.cons_append, List.append_assoc]
    exact .cond i t e hi ht he h h' ih

def countText (s : String) (ls : List Lexeme) : ℕ := ls.countP fun l => l.text = s

@[simp] theorem countText_nil (s : String) : countText s [] = 0 := rfl

@[simp] theorem countText_cons (s : String) (l : Lexeme) (ls : List Lexeme) :
    countText s (l :: ls) = countText s ls + if l.text = s then 1 else 0 := by
  simp [countText, List.countP_cons]

@[simp] theorem countText_append (s : String) (ls ms : List Lexeme) :
    countText s (ls ++ ms) = countText s ls + countText s ms :=
  List.countP_append

theorem bracket_not_cond {o c : String} (h : (o, c) ∈ layoutBrackets) : o ≠ "else" ∧ o ≠ "then" ∧ c ≠ "else" := by
  have hall : ∀ p ∈ layoutBrackets, p.1 ≠ "else" ∧ p.1 ≠ "then" ∧ p.2 ≠ "else" := by decide
  exact hall (o, c) h

theorem Item.Plain.not_cond {l : Lexeme} (h : (source l).Plain) : l.text ≠ "else" ∧ l.text ≠ "then" := by
  refine ⟨h.2.2, ?_⟩
  intro heq
  have hnone := h.2.1
  rw [heq] at hnone
  cases hnone

/-- Each pair of `then` and `else` has one of each. -/
theorem Nested.count {n : ℕ} {xs : List Item} (h : Nested n xs) :
    countText "else" (sources xs) = countText "then" (sources xs) + n := by
  induction h with
  | nil => rfl
  | plain x hx _ ih =>
    cases x with
    | inserted l => exact ih
    | source l =>
      obtain ⟨helse, hthen⟩ := hx.not_cond
      simp [helse, hthen, ih]
  | stray e he _ ih =>
    simp [he, ih]
    omega
  | block o c _ _ _ _ ih ih' =>
    simp [ih, ih']
    omega
  | pair o c hoc hif _ _ ih ih' =>
    obtain ⟨ho, ho', hc⟩ := bracket_not_cond hoc
    simp [ih, ih', ho, ho', hc, hif]
    omega
  | cond i t e hi ht he _ _ _ ih ih' ih'' =>
    simp [ih, ih', ih'', hi, ht, he]
    omega

/-! ### What is written up to a state -/

/-- The items end in the pairs that the contexts say are open. -/
inductive Open : List Context → ℕ → List Item → Prop
  | top {n xs} (hxs : Nested n xs) : Open [] n xs
  | block {ctx m n xs ys} (h : Open ctx m xs) (o : Lexeme) (ho : o.text = "\x7b") (hys : Nested n ys) (s : String)
      (loc : Loc) (c : ℤ) : Open (.LO s loc c :: ctx) (m + n) (xs ++ .inserted o :: ys)
  | pair {ctx m n xs ys} (h : Open ctx m xs) (o : Lexeme) {close : String} (hoc : (o.text, close) ∈ layoutBrackets)
      (hys : Nested n ys) : Open (.NL close :: ctx) (m + n) (xs ++ .source o :: ys)
  | cond {ctx k m n xs ys zs} (h : Open ctx k xs) (i t : Lexeme) (hi : i.text = "if") (ht : t.text = "then")
      (hys : Nested m ys) (hzs : Nested n zs) :
      Open (.NL "else" :: ctx) (k + m + n) (xs ++ .source i :: (ys ++ .source t :: zs))

theorem Open.append {ctx : List Context} {m n : ℕ} {xs ys : List Item} (hxs : Open ctx m xs) (hys : Nested n ys) :
    Open ctx (m + n) (xs ++ ys) := by
  cases hxs with
  | top h => exact .top (h.append hys)
  | block h o ho h' s loc c =>
    rw [Nat.add_assoc, List.append_assoc]
    exact .block h o ho (h'.append hys) s loc c
  | pair h o hoc h' =>
    rw [Nat.add_assoc, List.append_assoc]
    exact .pair h o hoc (h'.append hys)
  | cond h i t hi ht h' h'' =>
    have hcond := Open.cond h i t hi ht h' (h''.append hys)
    rw [← Nat.add_assoc] at hcond
    simpa using hcond

theorem Nested.one {x : Item} (hx : x.Plain) : Nested 0 [x] := .plain x hx .nil

/-- What a lexeme adds that is neither an opening nor a closing word. -/
theorem nested_other {l : Lexeme} (hopen : layoutBrackets.lookup l.text = none)
    (hclose : closingBrackets.lookup l.text = none) : ∃ n, Nested n [.source l] := by
  by_cases he : l.text = "else"
  · exact ⟨1, .stray l he .nil⟩
  · exact ⟨0, .one ⟨hopen, hclose, he⟩⟩

theorem Open.closeBlock {ctx : List Context} {n : ℕ} {xs : List Item} {s : String} {loc : Loc} {col : ℤ}
    (h : Open (.LO s loc col :: ctx) n xs) {c : Lexeme} (hc : c.text = "\x7d") : Open ctx n (xs ++ [.inserted c]) := by
  cases h with
  | block h o ho h' =>
    have hblock := h.append (.block o c ho hc h' .nil)
    simpa using hblock

theorem Open.relabel {ctx : List Context} {n : ℕ} {xs : List Item} {s : String} {loc : Loc} {col : ℤ}
    (h : Open (.LO s loc col :: ctx) n xs) (loc' : Loc) : Open (.LO s loc' col :: ctx) n xs := by
  cases h with
  | block h o ho h' => exact .block h o ho h' s loc' col

theorem Open.openBlock {ctx : List Context} {n : ℕ} {xs : List Item} (h : Open ctx n xs) {o : Lexeme} (ho : o.text = "\x7b")
    (s : String) (loc : Loc) (col : ℤ) : Open (.LO s loc col :: ctx) n (xs ++ [.inserted o]) :=
  .block h o ho .nil s loc col

theorem Open.openPair {ctx : List Context} {n : ℕ} {xs : List Item} (h : Open ctx n xs) {o : Lexeme} {close : String}
    (hoc : layoutBrackets.lookup o.text = some close) : Open (.NL close :: ctx) n (xs ++ [.source o]) :=
  .pair h o (Lib.mem_of_lookup hoc) .nil

theorem Open.branch {ctx : List Context} {n : ℕ} {xs : List Item} (h : Open (.NL "then" :: ctx) n xs) {t : Lexeme}
    (ht : t.text = "then") : Open (.NL "else" :: ctx) n (xs ++ [.source t]) := by
  generalize hclose : "then" = close at h
  cases h with
  | pair h o hoc h' =>
    have hif : ∀ p ∈ layoutBrackets, p.2 = "then" → p.1 = "if" := by decide
    have hcond := Open.cond h o t (hif _ hoc hclose.symm) ht h' .nil
    simpa using hcond
  | cond => exact absurd hclose (by decide)

theorem Open.closePair {ctx : List Context} {n : ℕ} {xs : List Item} {c : Lexeme} (h : Open (.NL c.text :: ctx) n xs)
    (hc : c.text ≠ "then") : Open ctx n (xs ++ [.source c]) := by
  generalize htext : c.text = close at h
  cases h with
  | pair h o hoc h' =>
    rw [← htext] at hoc
    have hpair := h.append (.pair o c hoc hc h' .nil)
    simpa using hpair
  | cond h i t hi ht h' h'' =>
    have hcond := h.append (.cond i t c hi ht htext h' h'' .nil)
    simpa [Nat.add_assoc] using hcond

/-- What a context waits for opens nothing. -/
theorem Open.close_ne {ctx : List Context} {n : ℕ} {xs : List Item} {close opener : String}
    (h : Open (.NL close :: ctx) n xs) {s : String} (ho : closingBrackets.lookup s = some opener) : opener ≠ close := by
  have hmem := Lib.mem_of_lookup ho
  cases h with
  | pair h o hoc h' =>
    have hall : ∀ p ∈ closingBrackets, ∀ q ∈ layoutBrackets, p.2 ≠ q.2 := by decide
    exact hall _ hmem _ hoc
  | cond =>
    have hall : ∀ p ∈ closingBrackets, p.2 ≠ "else" := by decide
    exact hall _ hmem

/-! ### The turns of the loop -/

/-- A token of a state, told apart from a semicolon that was inserted. -/
def Token.map {t u : Type} (f : t → u) : Token t → Token u
  | .token l => .token (f l)
  | .vlCurly l c => .vlCurly (f l) c
  | .nl c => .nl c

def Token.lexeme? {t : Type} : Token t → Option t
  | .token l => some l
  | _ => none

def lexemes (ts : List (Token Lexeme)) : List Lexeme := ts.filterMap Token.lexeme?

/-- From a stream with the lexemes `src` the loop comes to the tokens `is`, the output `os` and
the contexts `ctx`. -/
def Reads (src : List Lexeme) (is : List (Token Lexeme)) (os : List Lexeme) (ctx : List Context) : Prop :=
  ∃ (rest : List (Token Item)) (items : List Item) (n : ℕ),
    is = rest.map (Token.map Item.lexeme) ∧
    (∀ l, .inserted l ∈ rest.filterMap Token.lexeme? → l.text = ";") ∧
    os.reverse = items.map Item.out ∧
    sources items ++ sources (rest.filterMap Token.lexeme?) = src ∧
    Open ctx n items

namespace Reads

variable {src : List Lexeme} {is : List (Token Lexeme)} {os : List Lexeme} {ctx : List Context} {m : Lexeme}

theorem init (ts : List (Token Lexeme)) : Reads (lexemes ts) ts [] [] := by
  refine ⟨ts.map (Token.map Item.source), [], 0, ?_, ?_, rfl, ?_, .top .nil⟩
  · rw [List.map_map]
    have hid : Token.map Item.lexeme ∘ Token.map Item.source = id := by
      funext t
      cases t <;> rfl
    rw [hid, List.map_id]
  · intro l hl
    obtain ⟨t, ht, htl⟩ := List.mem_filterMap.1 hl
    obtain ⟨u, -, rfl⟩ := List.mem_map.1 ht
    cases u <;> cases htl
  · rw [sources_nil, List.nil_append]
    induction ts with
    | nil => rfl
    | cons t ts ih =>
      cases t with
      | token l => exact congrArg (l :: ·) ih
      | vlCurly l c => exact ih
      | nl c => exact ih

/-- A note of the lexer is dropped. -/
theorem drop {t : Token Lexeme} (h : Reads src (t :: is) os ctx) (ht : t.lexeme? = none) : Reads src is os ctx := by
  obtain ⟨rest, items, n, his, hsemi, hos, hsrc, hopen⟩ := h
  cases rest with
  | nil => cases his
  | cons u rest =>
    obtain ⟨rfl, rfl⟩ := List.cons.inj his
    cases u with
    | token x => cases ht
    | vlCurly x c => exact ⟨rest, items, n, rfl, hsemi, hos, hsrc, hopen⟩
    | nl c => exact ⟨rest, items, n, rfl, hsemi, hos, hsrc, hopen⟩

/-- A semicolon is put in front of the tokens. -/
theorem semicolon {s : Lexeme} (h : Reads src is os ctx) (hs : s.text = ";") : Reads src (.token s :: is) os ctx := by
  obtain ⟨rest, items, n, rfl, hsemi, hos, hsrc, hopen⟩ := h
  refine ⟨.token (.inserted s) :: rest, items, n, rfl, ?_, hos, hsrc, hopen⟩
  intro l hl
  obtain heq | hl := List.mem_cons.1 hl
  · rw [Item.inserted.inj heq]
    exact hs
  · exact hsemi l hl

/-- A brace is inserted. -/
theorem insert {ctx' : List Context} {b : Lexeme} (h : Reads src is os ctx)
    (hopen' : ∀ n items, Open ctx n items → Open ctx' n (items ++ [.inserted b])) : Reads src is (b :: os) ctx' := by
  obtain ⟨rest, items, n, his, hsemi, hos, hsrc, hopen⟩ := h
  refine ⟨rest, items ++ [.inserted b], n, his, hsemi, ?_, ?_, hopen' n items hopen⟩
  · rw [List.reverse_cons, hos, List.map_append]
    rfl
  · rw [sources_append, sources_inserted, sources_nil, List.append_nil, hsrc]

/-- A token is written; a semicolon that was inserted goes anywhere. -/
theorem write (ctx' : List Context) (h : Reads src (.token m :: is) os ctx)
    (hsemi' : m.text = ";" → ctx' = ctx)
    (hopen' : ∀ n items, Open ctx n items → ∃ n', Open ctx' n' (items ++ [.source m])) :
    Reads src is (written m :: os) ctx' := by
  obtain ⟨rest, items, n, his, hsemi, hos, hsrc, hopen⟩ := h
  cases rest with
  | nil => cases his
  | cons u rest =>
    obtain ⟨hu, rfl⟩ := List.cons.inj his
    cases u with
    | vlCurly => cases hu
    | nl => cases hu
    | token x =>
      obtain rfl := Token.token.inj hu
      have hrest : ∀ l, .inserted l ∈ rest.filterMap Token.lexeme? → l.text = ";" :=
        fun l hl => hsemi l (List.mem_cons_of_mem _ hl)
      cases x with
      | source l =>
        obtain ⟨n', hopen'⟩ := hopen' n items hopen
        refine ⟨rest, items ++ [.source l], n', rfl, hrest, ?_, ?_, hopen'⟩
        · rw [List.reverse_cons, hos, List.map_append]
          rfl
        · rw [sources_append, List.append_assoc]
          exact hsrc
      | inserted l =>
        have htext : l.text = ";" := hsemi l (List.mem_cons_self ..)
        have hwritten : written l = l := if_neg (by
          rw [htext]
          decide)
        refine ⟨rest, items ++ [.inserted l], n + 0, rfl, hrest, ?_, ?_, ?_⟩
        · rw [List.reverse_cons, hos, List.map_append]
          exact congrArg (List.map Item.out items ++ [·]) hwritten
        · rw [sources_append, sources_inserted, sources_nil, List.append_nil]
          exact hsrc
        · rw [hsemi' htext]
          exact hopen.append (.one htext)

theorem written_of_ne {m : Lexeme} (h : m.text ≠ "let#") : written m = m := if_neg h

theorem action_ne {loc : Loc} {s : String} {a : Action} (h : actionMap loc s = some a) : s ≠ "let#" := by
  intro heq
  rw [heq] at h
  cases loc <;> cases h

theorem stepAction (r : R) (h : Reads src r.is r.os r.ctx) (his : r.is = .token m :: is)
    (hopen : layoutBrackets.lookup m.text = none) (hclose : closingBrackets.lookup m.text = none) :
    Reads src (stepAction r m is).is (stepAction r m is).os (stepAction r m is).ctx := by
  have hother : ∀ ctx n items, Open ctx n items → ∃ n', Open ctx n' (items ++ [.source m]) := by
    intro ctx n items ho
    obtain ⟨k, hk⟩ := nested_other hopen hclose
    exact ⟨n + k, ho.append hk⟩
  rw [his] at h
  unfold Lex.stepAction
  split
  · next opener loc col ctx hctx =>
    split
    · next hact =>
      have hb : Reads src (.token m :: is) (r.rbrace :: r.os) ctx := by
        rw [hctx] at h
        exact h.insert fun n items ho => ho.closeBlock rfl
      have hw := hb.write _ (fun _ => rfl) (hother ctx)
      rwa [written_of_ne (action_ne hact)] at hw
    · next loc' hact =>
      rw [hctx] at h
      have hw := h.write _ (fun _ => rfl) (hother _)
      rw [written_of_ne (action_ne hact)] at hw
      obtain ⟨rest, items, n, hrest⟩ := hw
      exact ⟨rest, items, n, hrest.1, hrest.2.1, hrest.2.2.1, hrest.2.2.2.1, hrest.2.2.2.2.relabel loc'⟩
    · exact h.write _ (fun _ => rfl) (hother _)
  · exact h.write _ (fun _ => rfl) (hother _)

/-- A bracket is written as it is, and is no semicolon. -/
theorem bracket_text {l : List (String × String)} (hl : ∀ p ∈ l, p.1 ≠ "let#" ∧ p.1 ≠ ";") {s c : String}
    (h : l.lookup s = some c) : s ≠ "let#" ∧ s ≠ ";" :=
  hl _ (Lib.mem_of_lookup h)

theorem stepClosing {r r' : R} (h : Reads src r.is r.os r.ctx) (his : r.is = .token m :: is)
    (hopen : layoutBrackets.lookup m.text = none) (hr : stepClosing r m is = .inl r') : Reads src r'.is r'.os r'.ctx := by
  unfold Lex.stepClosing at hr
  split at hr
  · next opener hclose =>
    split at hr
    · next opened ctx hctx =>
      split_ifs at hr with heq
      obtain ⟨rest, items, n, -, -, -, -, ho⟩ := h
      rw [hctx] at ho
      exact absurd heq (ho.close_ne hclose)
    · next ctx hctx =>
      obtain rfl := Sum.inl.inj hr
      rw [hctx] at h
      exact h.insert fun n items ho => ho.closeBlock rfl
    · cases hr
  · next hclose =>
    obtain rfl := Sum.inl.inj hr
    exact stepAction r h his hopen hclose

theorem stepBracket {r r' : R} (h : Reads src r.is r.os r.ctx) (his : r.is = .token m :: is)
    (hr : stepBracket r m is = .inl r') : Reads src r'.is r'.os r'.ctx := by
  unfold Lex.stepBracket at hr
  split at hr
  · next close hopen =>
    obtain rfl := Sum.inl.inj hr
    obtain ⟨hlet, hsemi⟩ := bracket_text (by decide) hopen
    rw [his] at h
    have hw := h.write _ (fun heq => absurd heq hsemi) fun n items ho => ⟨n, ho.openPair hopen⟩
    rwa [written_of_ne hlet] at hw
  · next hopen => exact stepClosing h his hopen hr

theorem close_text {ctx : List Context} {n : ℕ} {items : List Item} {close : String}
    (h : Open (.NL close :: ctx) n items) : close ≠ "let#" ∧ close ≠ ";" := by
  cases h with
  | pair h o hoc h' =>
    have hall : ∀ p ∈ layoutBrackets, p.2 ≠ "let#" ∧ p.2 ≠ ";" := by decide
    exact hall _ hoc
  | cond => decide

theorem stepToken {r r' : R} (h : Reads src r.is r.os r.ctx) (his : r.is = .token m :: is)
    (hr : stepToken r m is = .inl r') : Reads src r'.is r'.os r'.ctx := by
  unfold Lex.stepToken at hr
  split at hr
  · next close ctx hctx =>
    have htext : close ≠ "let#" ∧ close ≠ ";" := by
      obtain ⟨rest, items, n, -, -, -, -, ho⟩ := h
      rw [hctx] at ho
      exact close_text ho
    split_ifs at hr with hthen heq
    · obtain rfl := Sum.inl.inj hr
      rw [his, hctx, hthen.2] at h
      have hw := h.write (.NL "else" :: ctx)
        (fun heq => absurd (hthen.1.symm.trans heq) (by decide)) fun n items ho => ⟨n, ho.branch hthen.1⟩
      rwa [written_of_ne (by rw [hthen.1]; decide)] at hw
    · obtain rfl := Sum.inl.inj hr
      rw [his, hctx] at h
      subst heq
      have hne : m.text ≠ "then" := fun ht => hthen ⟨ht, ht⟩
      have hw := h.write ctx (fun heq => absurd heq htext.2) fun n items ho => ⟨n, ho.closePair hne⟩
      rwa [written_of_ne htext.1] at hw
    · exact stepBracket h his hr
  · next hctx =>
    split_ifs at hr
    · obtain rfl := Sum.inl.inj hr
      rw [hctx] at h
      exact h.insert fun n items ho => ho.closeBlock rfl
    · exact stepBracket h his hr
  · exact stepBracket h his hr

theorem stepNL {r : R} {c : ℤ} (h : Reads src r.is r.os r.ctx) (his : r.is = .nl c :: is) :
    Reads src (stepNL r c is).is (stepNL r c is).os (stepNL r c is).ctx := by
  have hdrop : Reads src is r.os r.ctx := by
    rw [his] at h
    exact h.drop rfl
  unfold Lex.stepNL
  split
  · next opener loc col ctx hctx =>
    have hclose : Reads src r.is (r.rbrace :: r.os) ctx := by
      rw [hctx] at h
      exact h.insert fun n items ho => ho.closeBlock rfl
    split_ifs
    · exact hclose
    · exact hdrop.semicolon rfl
    · exact hclose
    · exact hdrop
  · exact hdrop

theorem stepVLCurly {r : R} {l : Lexeme} {c : ℤ} (h : Reads src r.is r.os r.ctx) (his : r.is = .vlCurly l c :: is) :
    Reads src (stepVLCurly r l c is).is (stepVLCurly r l c is).os (stepVLCurly r l c is).ctx := by
  have hdrop : Reads src is r.os r.ctx := by
    rw [his] at h
    exact h.drop rfl
  have hopened : Reads src is (r.lbrace :: r.os) (.LO l.text (sl l.text) c :: r.ctx) :=
    hdrop.insert fun n items ho => ho.openBlock rfl _ _ _
  unfold Lex.stepVLCurly
  split
  · split_ifs
    · exact hopened
    · exact hopened
    · exact hopened.insert fun n items ho => ho.closeBlock rfl
    · exact hopened
  · exact hopened

theorem step {r r' : R} (h : Reads src r.is r.os r.ctx) (hr : step r = .inl r') : Reads src r'.is r'.os r'.ctx := by
  unfold Lex.step at hr
  split at hr
  · next his =>
    obtain rfl := Sum.inl.inj hr
    exact stepNL h his
  · next his =>
    obtain rfl := Sum.inl.inj hr
    exact stepVLCurly h his
  · next his => exact stepToken h his hr
  · next his =>
    split at hr
    · cases hr
    · next hctx =>
      obtain rfl := Sum.inl.inj hr
      rw [hctx, his] at h
      exact h.insert fun n items ho => ho.closeBlock rfl
    · cases hr

end Reads

/-! ### Whole runs -/

/-- The loop comes to its end after finitely many turns, with this output. -/
inductive Halts : R → List Lexeme → Prop
  | stop {r out} (h : step r = .inr out) : Halts r out
  | turn {r r' out} (h : step r = .inl r') (hr : Halts r' out) : Halts r out

theorem run_halts (r : R) : Halts r (run r) := by
  induction r using run.induct with
  | case1 r r' h ih =>
    rw [run.eq_def]
    split
    · next r'' h' =>
      rw [h] at h'
      obtain rfl := Sum.inl.inj h'
      exact .turn h ih
    · next h' =>
      rw [h] at h'
      cases h'
  | case2 r out h =>
    rw [run.eq_def]
    split
    · next h' =>
      rw [h] at h'
      cases h'
    · next out' h' =>
      exact .stop h'

def NoError (ls : List Lexeme) : Prop := ∀ l ∈ ls, l.cls ≠ .LLexError

theorem err_error (r : R) : ¬ NoError r.err := by
  intro h
  have hmem : (⟨r.sloc, .LLexError, ""⟩ : Lexeme) ∈ r.err := List.mem_reverse.2 (List.mem_cons_self ..)
  exact h _ hmem rfl

theorem stepBracket_error {r : R} {m : Lexeme} {is : List (Token Lexeme)} {out : List Lexeme}
    (h : stepBracket r m is = .inr out) : out = r.err := by
  unfold stepBracket stepClosing at h
  split at h
  · cases h
  · split at h
    · split at h
      · split_ifs at h
        exact (Sum.inr.inj h).symm
      · cases h
      · exact (Sum.inr.inj h).symm
    · cases h

theorem stepToken_error {r : R} {m : Lexeme} {is : List (Token Lexeme)} {out : List Lexeme}
    (h : stepToken r m is = .inr out) : out = r.err := by
  unfold stepToken at h
  split at h
  · split_ifs at h
    exact stepBracket_error h
  · split_ifs at h
    exact stepBracket_error h
  · exact stepBracket_error h

/-- The output of a run without errors is that of a state with nothing left or open. -/
theorem stop_cases {r : R} {out : List Lexeme} (h : step r = .inr out) (hok : NoError out) :
    out = r.os.reverse ∧ r.is = [] ∧ r.ctx = [] := by
  unfold step at h
  split at h
  · cases h
  · cases h
  · exact absurd hok (stepToken_error h ▸ err_error r)
  · next his =>
    split at h
    · exact absurd hok (Sum.inr.inj h ▸ err_error r)
    · cases h
    · next hctx => exact ⟨(Sum.inr.inj h).symm, his, hctx⟩

theorem Reads.halts {src : List Lexeme} {r : R} {out : List Lexeme} (hr : Halts r out)
    (h : Reads src r.is r.os r.ctx) (hok : NoError out) :
    ∃ items n, out = items.map Item.out ∧ sources items = src ∧ Nested n items := by
  induction hr with
  | stop hstep =>
    obtain ⟨rfl, his, hctx⟩ := stop_cases hstep hok
    obtain ⟨rest, items, n, hrest, -, hos, hsrc, hopen⟩ := h
    rw [his] at hrest
    obtain rfl := List.map_eq_nil_iff.1 hrest.symm
    rw [hctx] at hopen
    cases hopen with
    | top hn => exact ⟨items, n, hos, by simpa using hsrc, hn⟩
  | turn hstep _ ih => exact ih (h.step hstep) hok

/-- The output is what `items` are written as, and without the inserted ones they are the
lexemes of the input. -/
structure Faithful (ts : List (Token Lexeme)) (items : List Item) : Prop where
  out : layout ts = items.map Item.out
  source : sources items = lexemes ts

def WellNested (items : List Item) : Prop := Nested 0 items

theorem Faithful.count {ts : List (Token Lexeme)} {items : List Item} (h : Faithful ts items) (hn : WellNested items) :
    countText "else" (lexemes ts) = countText "then" (lexemes ts) := by
  have hcount := Nested.count hn
  rwa [h.source] at hcount

/-- The loop ends. Where no error is reported the output is faithful, and well nested as well
exactly where the input has as many `else` as `then`. -/
theorem layout_nested_iff (ts : List (Token Lexeme)) (hok : NoError (layout ts)) :
    Halts ⟨ts, [], []⟩ (layout ts) ∧ (∃ items, Faithful ts items) ∧
    ((∃ items, Faithful ts items ∧ WellNested items) ↔
      countText "else" (lexemes ts) = countText "then" (lexemes ts)) := by
  have hhalts : Halts ⟨ts, [], []⟩ (layout ts) := run_halts _
  obtain ⟨items, n, hout, hsrc, hn⟩ := Reads.halts hhalts (.init ts) hok
  refine ⟨hhalts, ⟨items, hout, hsrc⟩, ?_, ?_⟩
  · intro h
    obtain ⟨items', hfaith, hnested⟩ := h
    exact hfaith.count hnested
  · intro hcount
    have hcount' := hn.count
    rw [hsrc] at hcount'
    obtain rfl : n = 0 := by omega
    exact ⟨items, ⟨hout, hsrc⟩, hn⟩

/-! ### An `else` inside of a block -/

theorem Halts.run {r : R} {out : List Lexeme} (h : Halts r out) : Lex.run r = out := by
  induction h with
  | stop h =>
    rw [run.eq_def]
    split
    · next h' => cases h.symm.trans h'
    · next h' => exact Sum.inr.inj (h'.symm.trans h)
  | turn h _ ih =>
    rw [run.eq_def]
    split
    · next h' => exact Sum.inl.inj (h'.symm.trans h) ▸ ih
    · next h' => cases h.symm.trans h'

/-- At most `n` turns. -/
def runFor : ℕ → R → Option (List Lexeme)
  | 0, _ => none
  | n + 1, r => (step r).elim (runFor n) some

theorem Halts.of_runFor {n : ℕ} {r : R} {out : List Lexeme} (h : runFor n r = some out) : Halts r out := by
  induction n generalizing r with
  | zero => cases h
  | succ n ih =>
    rw [runFor] at h
    cases hr : step r with
    | inl r' =>
      rw [hr] at h
      exact .turn hr (ih h)
    | inr out' =>
      rw [hr] at h
      obtain rfl := Option.some.inj h
      exact .stop hr

theorem noError_of_runFor (n : ℕ) {ts : List (Token Lexeme)}
    (h : ((runFor n ⟨ts, [], []⟩).any fun out => out.all fun l => l.cls ≠ .LLexError) = true) : NoError (layout ts) := by
  obtain ⟨out, hout, hall⟩ := (Option.any_eq_true _ _).1 h
  rw [layout, (Halts.of_runFor hout).run]
  intro l hl
  exact of_decide_eq_true (List.all_eq_true.1 hall l hl)

def tokenOf (s : String) : Token Lexeme := .token ⟨⟨"M.hs", 1, 1⟩, .LReservedId, s⟩

/-- `if c then do x else y`, then `else z` in a column left of the `do` -/
def elseInDo : List (Token Lexeme) :=
  [tokenOf "if", tokenOf "c", tokenOf "then", tokenOf "do", .vlCurly ⟨⟨"M.hs", 1, 1⟩, .LReservedId, "do"⟩ 16,
   tokenOf "x", tokenOf "else", tokenOf "y", .nl 5, tokenOf "else", tokenOf "z"]

theorem elseInDo_unnested : NoError (layout elseInDo) ∧ ¬ ∃ items, Faithful elseInDo items ∧ WellNested items := by
  refine ⟨noError_of_runFor 20 (by decide +kernel), ?_⟩
  intro h
  obtain ⟨items, hfaith, hn⟩ := h
  exact absurd (hfaith.count hn) (by decide)

def plainIf : List (Token Lexeme) :=
  [tokenOf "if", tokenOf "c", tokenOf "then", tokenOf "x", tokenOf "else", tokenOf "y"]

theorem plainIf_nested : ∃ items, Faithful plainIf items ∧ WellNested items :=
  (layout_nested_iff plainIf (noError_of_runFor 20 (by decide +kernel))).2.2.2 (by decide)

end Jhc.FrontEnd.Lex
