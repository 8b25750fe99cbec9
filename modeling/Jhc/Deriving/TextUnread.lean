import Jhc.Deriving.TextRoundTrip

/-!
# Texts that the derived Read does not read

Records, operators and names that the lexer breaks: `showsPrec` shows a constructor of such
a kind in a form that no reader takes, so the law holds of the other constructors only.
-/

namespace Jhc.Deriving
open Jhc.Text

/-! ### How a shown text starts -/

section
variable {T V : Type} {inst : T → Inst V}

/-- What the expression puts in front of a text satisfies `P`. -/
def Heads (P : Str → Prop) (e : Option ShowS) : Prop := ∀ g, e = some g → ∀ s, P (g s)

theorem heads_gshowString {P : Str → Prop} {t : Str} (h : ∀ s, P (t ++ s)) : Heads P (gshowString t) := by
  rintro g ⟨⟩ s
  exact h s

theorem Heads.gdot {P : Str → Prop} {a : Option ShowS} (h : Heads P a) (b : Option ShowS) : Heads P (gdot a b) := by
  intro g hg s
  cases a with
  | none => cases hg
  | some a =>
    cases b with
    | none => cases hg
    | some b =>
      obtain rfl : a ∘ b = g := Option.some.inj hg
      exact h a rfl (b s)

theorem Heads.gcomp {P : Str → Prop} {a : Option ShowS} (h : Heads P a) (b : Option ShowS) : Heads P (gcomp a b) := by
  intro g hg s
  cases a with
  | none => cases hg
  | some a =>
    cases b with
    | none => cases hg
    | some b =>
      obtain rfl : a ∘ (' ' :: ·) ∘ b = g := Option.some.inj hg
      exact h a rfl (' ' :: b s)

theorem Heads.foldr1 {P : Str → Prop} {f : Option ShowS → Option ShowS → Option ShowS} {a : Option ShowS}
    (h : Heads P a) (hf : ∀ b, Heads P (f a b)) (l : List (Option ShowS)) : Heads P (foldr1 f (a :: l)).join := by
  cases l with
  | nil => exact h
  | cons b l =>
    rw [Deriving.foldr1]
    cases Deriving.foldr1 f (b :: l) with
    | none =>
      intro g hg
      cases hg
    | some c => exact hf c
    · simp

theorem Heads.gshowParen {P : Str → Prop} {a : Option ShowS} (h : Heads P a) {ne : ℤ} (hne : ne < 10) :
    Heads P (gshowParen ne a) := by
  intro g hg s
  obtain ⟨p, ha, rfl⟩ := Option.map_eq_some_iff.1 hg
  rw [showParen, if_neg (by simpa using hne)]
  exact h p ha s

theorem heads_paren {P : Str → Prop} {a : Option ShowS} {ne : ℤ} (hne : 10 ≤ ne) (h : Heads (fun r => P ('(' :: r)) a) :
    Heads P (gshowParen ne a) := by
  intro g hg s
  obtain ⟨p, ha, rfl⟩ := Option.map_eq_some_iff.1 hg
  rw [showParen, if_pos (by simpa using hne)]
  exact h p ha (')' :: s)

end

/-! ### Where a parse comes from -/

section
variable {T X : Type} {inst : T → Inst (Value X)} {n : ℕ} {b : Body T} {d : ℤ} {r : Str}

/-- The text starts with the name of the constructor and goes on with its fields. -/
def Starts (inst : T → Inst (Value X)) (b : Body T) (r : Str) : Prop :=
  ∃ u, (getIdent b.constructor, u) ∈ lex r ∧ (b.types ≠ [] → ∃ zs, readFields inst b.types u = some zs ∧ zs ≠ [])

/-- What a parse of the constructor needs of the text. -/
def Parses (inst : T → Inst (Value X)) (b : Body T) (r : Str) : Prop :=
  Starts inst b r ∨ b.types ≠ [] ∧ ∃ u, (['('], u) ∈ lex r ∧ (Starts inst b u ∨ ∃ u', (['('], u') ∈ lex u)

theorem readCon_starts {zs : List (Value X × Str)} {p : Value X × Str} (h : readCon inst b r = some zs) (hp : p ∈ zs) :
    Starts inst b r ∧ ∃ vs, p.1 = .con b.constructor vs := by
  obtain ⟨⟨tok, u⟩, hx, ws, hws, hp⟩ := mem_comp h hp
  obtain ⟨hmem, htok⟩ := List.mem_filter.1 hx
  obtain ⟨xs, hxs, rfl⟩ := Option.map_eq_some_iff.1 hws
  obtain ⟨y, hy, rfl⟩ := List.mem_map.1 hp
  obtain rfl : tok = getIdent b.constructor := of_decide_eq_true htok
  exact ⟨⟨u, hmem, fun _ => ⟨xs, hxs, List.ne_nil_of_mem hy⟩⟩, y.1, rfl⟩

section
variable {α : Type} {g : ReadS α} {zs : List (α × Str)} {p : α × Str}

theorem mandatory_step (h : readParen.mandatory g (n + 1) r = some zs) (hp : p ∈ zs) : ∃ u, (['('], u) ∈ lex r ∧
    ∃ x : α × Str, x.1 = p.1 ∧
      ((∃ xs, g u = some xs ∧ x ∈ xs) ∨ ∃ ys, readParen.mandatory g n u = some ys ∧ x ∈ ys) := by
  rw [readParen.mandatory] at h
  obtain ⟨⟨tok, u⟩, hlex, ws, hws, hp⟩ := mem_comp h hp
  dsimp only at hws
  split_ifs at hws with htok
  · subst htok
    refine ⟨u, hlex, ?_⟩
    cases hg : g u with
    | none => simp [hg] at hws
    | some xs =>
      cases hm : readParen.mandatory g n u with
      | none => simp [hg, hm] at hws
      | some ys =>
        rw [hg, hm] at hws
        obtain ⟨x, hx, vs, hvs, hp⟩ := mem_comp hws hp
        obtain rfl := Option.some.inj hvs
        obtain ⟨y, -, rfl⟩ := List.mem_map.1 hp
        refine ⟨x, rfl, (List.mem_append.1 hx).imp (fun hx => ⟨xs, rfl, hx⟩) fun hx => ⟨ys, rfl, hx⟩⟩
  · obtain rfl : [] = ws := Option.some.inj hws
    cases hp

theorem mandatory_parse {Q : α → Prop} (hQ : ∀ u xs x, g u = some xs → x ∈ xs → Q x.1)
    (h : readParen.mandatory g n r = some zs) (hp : p ∈ zs) : Q p.1 := by
  induction n generalizing r zs p with
  | zero => cases h
  | succ n ih =>
    obtain ⟨u, -, x, hx, ⟨xs, hg, hmem⟩ | ⟨ys, hm, hmem⟩⟩ := mandatory_step h hp
    · exact hx ▸ hQ u xs x hg hmem
    · exact hx ▸ ih hm hmem

theorem mandatory_starts (h : readParen.mandatory g n r = some zs) (hp : p ∈ zs) : ∃ u, (['('], u) ∈ lex r ∧
    ((∃ xs x, g u = some xs ∧ x ∈ xs) ∨ ∃ u', (['('], u') ∈ lex u) := by
  cases n with
  | zero => cases h
  | succ n =>
    obtain ⟨u, hlex, x, -, ⟨xs, hg, hmem⟩ | ⟨ys, hm, hmem⟩⟩ := mandatory_step h hp
    · exact ⟨u, hlex, .inl ⟨xs, x, hg, hmem⟩⟩
    · cases n with
      | zero => cases hm
      | succ n =>
        obtain ⟨u', hlex', -⟩ := mandatory_step hm hmem
        exact ⟨u, hlex, .inr ⟨u', hlex'⟩⟩

theorem readParen_parse {b : Bool} (h : readParen n b g r = some zs) (hp : p ∈ zs) :
    (∃ xs, g r = some xs ∧ p ∈ xs) ∨ ∃ ys, readParen.mandatory g n r = some ys ∧ p ∈ ys := by
  cases b with
  | true => exact .inr ⟨zs, h, hp⟩
  | false =>
    simp only [readParen, readParen.optional, Bool.false_eq_true, if_false] at h
    cases hg : g r with
    | none => simp [hg] at h
    | some xs =>
      cases hm : readParen.mandatory g n r with
      | none => simp [hg, hm] at h
      | some ys =>
        obtain rfl : xs ++ ys = zs := by simpa [hg, hm] using h
        exact (List.mem_append.1 hp).imp (fun hp => ⟨xs, rfl, hp⟩) fun hp => ⟨ys, rfl, hp⟩

end

/-- A parse is of the body's constructor, whose name stands first or after a parenthesis. -/
theorem readBody_parse {zs : List (Value X × Str)} {p : Value X × Str} (h : readBody inst n b d r = some zs)
    (hp : p ∈ zs) : (∃ vs, p.1 = .con b.constructor vs) ∧ Parses inst b r := by
  by_cases hts : b.types = []
  · rw [readBody_nullary hts] at h
    obtain rfl := Option.some.inj h
    obtain ⟨⟨tok, u⟩, hx, rfl⟩ := List.mem_map.1 hp
    obtain ⟨hmem, htok⟩ := List.mem_filter.1 hx
    obtain rfl : tok = getIdent b.constructor := of_decide_eq_true htok
    exact ⟨⟨[], rfl⟩, .inl ⟨u, hmem, fun hne => absurd hts hne⟩⟩
  · rw [readBody_fields hts] at h
    rcases readParen_parse h hp with ⟨xs, hg, hmem⟩ | ⟨ys, hm, hmem⟩
    · obtain ⟨hstarts, hcon⟩ := readCon_starts hg hmem
      exact ⟨hcon, .inl hstarts⟩
    · obtain ⟨u, hlex, hu⟩ := mandatory_starts hm hmem
      refine ⟨mandatory_parse (Q := fun v => ∃ vs, v = .con b.constructor vs) (fun u xs x hg hx => (readCon_starts hg hx).2) hm hmem, .inr ⟨hts, u, hlex, ?_⟩⟩
      exact hu.imp_left fun ⟨xs, x, hg, hx⟩ => (readCon_starts hg hx).1

end

/-! ### Tokens of the names -/

theorem lex_colon (s : Str) : lex (':' :: s) = [(':' :: s.takeWhile isSym, s.dropWhile isSym)] := by
  have hspace : isSpace ':' = false := by decide
  have hsingle : isSingle ':' = false := by decide
  have hsym : isSym ':' = true := by decide
  rw [lex.eq_def]
  simp [hspace, hsingle, hsym, List.span_eq_takeWhile_dropWhile]

theorem not_mem_of_le {c : Char} {t : Str} (hc : '\xc0' ≤ c) (ht : (t.all fun d => d < '\xc0') = true) : c ∉ t :=
  fun hmem => absurd (of_decide_eq_true (List.all_eq_true.1 ht c hmem)) (Char.not_lt.2 hc)

/-- A letter that is not of ASCII starts no token. -/
theorem lex_latin {c : Char} (hc : '\xc0' ≤ c) (s : Str) : lex (c :: s) = [] := by
  have hspace : isSpace c = false := decide_eq_false (not_mem_of_le hc (by decide))
  have hsingle : isSingle c = false := decide_eq_false (not_mem_of_le hc (by decide))
  have hsym : isSym c = false := decide_eq_false (not_mem_of_le hc (by decide))
  have hquote : c ∉ ['\'', '"'] := not_mem_of_le hc (by decide)
  have hle : ∀ d < '\xc0', decide (c ≤ d) = false := fun d hd =>
    decide_eq_false fun h => absurd (Char.le_trans hc h) (Char.not_le.2 hd)
  have halpha : isAlpha c = false := by
    simp [isAlpha, isUpper, isLower, hle 'Z' (by decide), hle 'z' (by decide)]
  have hdigit : isDigit c = false := by
    simp [isDigit, hle '9' (by decide)]
  rw [List.mem_cons, List.mem_singleton, not_or] at hquote
  rw [lex.eq_def]
  simp [hspace, hsingle, hsym, hquote.1, hquote.2, halpha, hdigit]

/-- The lexer takes a part of the name and what follows, if anything. -/
theorem lex_large {c : Char} (hc : isLarge c = true ∨ c = ':') {s tok u : Str} (h : (tok, u) ∈ lex (c :: s)) :
    ∃ t, tok = c :: t ∧ t ++ u = s ∧ (isLarge c = true → isReadable tok = true) := by
  by_cases halpha : isAlpha c = true
  · rw [lex_alpha halpha] at h
    obtain ⟨rfl, rfl⟩ := Prod.mk.inj (List.mem_singleton.1 h)
    refine ⟨_, rfl, List.takeWhile_append_dropWhile, fun _ => ?_⟩
    simp [isReadable, halpha, List.all_takeWhile]
  rcases hc with hlarge | rfl
  · have hle : '\xc0' ≤ c := by
      have hupper : isUpper c = false := by
        simp [isAlpha] at halpha
        exact halpha.1
      simp [isLarge, hupper] at hlarge
      rcases hlarge with h | h
      · exact h.1
      · exact Char.le_trans (by decide) h.1
    rw [lex_latin hle] at h
    cases h
  · rw [lex_colon] at h
    obtain ⟨rfl, rfl⟩ := Prod.mk.inj (List.mem_singleton.1 h)
    exact ⟨_, rfl, List.takeWhile_append_dropWhile, fun h => absurd h (by decide)⟩

/-! ### A type with one value for the fields that are not declared -/

def unitInst : Inst (Value Unit) where
  showsPrec _ _ := some (showString "()".toList)
  readsPrec _ r := some (((lex r).filter fun x => x.1 = ['(']).flatMap fun x =>
    ((lex x.2).filter fun y => y.1 = [')']).map fun y => (.ext () [], y.2))

theorem unitInst_read (d : ℤ) (s : Str) : unitInst.readsPrec d ('(' :: ')' :: s) = some [(.ext () [], s)] := by
  simp [unitInst, lex_open, lex_close]

theorem unitInst_inverse : InverseAt unitInst (.ext () []) := by
  intro d
  refine ⟨['(', ')'], rfl, ⟨by simp, fun s _ => ?_⟩, fun s _ => ⟨unitInst_read d s, ?_⟩⟩
  · exact .step (lex_open _) (by simp) (.step (lex_close _) (by simp) (.refl _))
  · have hread := unitInst_read d s
    simp only [unitInst, List.cons_append, List.nil_append, lex_space] at hread ⊢
    exact hread

section
variable {T : Type}

def unitTy : T → Unit → List T → Prop := fun _ _ ts => ts = []

def unitOwn : T → (T → Inst (Value Unit)) → Inst (Value Unit) := fun _ _ => unitInst

variable {decls : T → Option (Data T)} {n : ℕ} {t : T} {b : Body T} {r u tok : Str}

theorem unitOwn_lawful : Lawful decls unitTy unitOwn := by
  intro t x ts parts inst _ hx hlen _
  obtain rfl : parts = [] := by
    rw [show ts = [] from hx] at hlen
    exact List.length_eq_zero_iff.1 hlen
  exact unitInst_inverse

theorem Declared.name {data : Data T} (hd : Declared data) (hb : b ∈ data.body) :
    ∃ c cs, getIdent b.constructor = c :: cs ∧ c ≠ '(' ∧ c ≠ '\x7b' ∧ c ≠ ')' := by
  obtain ⟨c, cs, hname, hc⟩ := hd.named b hb
  refine ⟨c, cs, hname, ?_, ?_, ?_⟩ <;> (rintro rfl; revert hc; decide)

/-- No type has a reader for a text that starts with a brace or a closing parenthesis. -/
theorem read_stuck (hD : ∀ t d, decls t = some d → Declared d) (hlex : lex r = [(tok, u)]) (htok : tok = ['\x7b'] ∨ tok = [')'])
    {d : ℤ} {zs : List (Value Unit × Str)} (h : (instances decls unitOwn n t).readsPrec d r = some zs) : zs = [] := by
  have hopen : tok ≠ ['('] := by rcases htok with rfl | rfl <;> decide
  cases n with
  | zero => cases h
  | succ n =>
    cases ht : decls t with
    | none =>
      rw [instances_ext ht] at h
      have hmiss := filter_miss hlex hopen
      simp only [unitOwn, unitInst, hmiss, List.flatMap_nil] at h
      exact (Option.some.inj h).symm
    | some data =>
      rw [instances_con ht] at h
      dsimp only at h
      rw [deriveRead_eq] at h
      refine List.eq_nil_iff_forall_not_mem.2 fun p hp => ?_
      obtain ⟨b, hb, ys, hread, hmem⟩ := mem_comp h hp
      have hname : tok ≠ getIdent b.constructor := by
        obtain ⟨c, cs, hname, -, hbrace, hclose⟩ := (hD t data ht).name hb
        rw [hname]
        rcases htok with rfl | rfl
        · exact fun h => hbrace (List.cons.inj h).1.symm
        · exact fun h => hclose (List.cons.inj h).1.symm
      rw [readBody_miss hlex hname hopen] at hread
      obtain rfl := Option.some.inj hread
      cases hmem

theorem readFields_stuck (hD : ∀ t d, decls t = some d → Declared d) (hlex : lex r = [(tok, u)])
    (htok : tok = ['\x7b'] ∨ tok = [')']) {ts : List T} (hts : ts ≠ []) {zs : List (List (Value Unit) × Str)}
    (h : readFields (instances decls unitOwn n) ts r = some zs) : zs = [] := by
  cases ts with
  | nil => exact absurd rfl hts
  | cons t ts =>
    rw [readFields] at h
    obtain ⟨xs, hxs, h⟩ := Option.bind_eq_some_iff.1 h
    rw [read_stuck hD hlex htok hxs] at h
    exact (Option.some.inj h).symm

/-- The text of a value in prefix form, as an argument. -/
def HeadOk (r : Str) : Prop :=
  (∃ c t, r = c :: t ∧ isAlpha c = true) ∨ ∃ c t, r = '(' :: c :: t ∧ (isAlpha c = true ∨ c = ')')

theorem headOk_name {name : Str} (h : isReadable name = true) (s : Str) : ∃ c t, name ++ s = c :: t ∧ isAlpha c = true := by
  match name, h with
  | c :: cs, h => exact ⟨c, cs ++ s, rfl, (Bool.and_eq_true_iff.1 h).1⟩

variable {V : Type} {inst : T → Inst V}

theorem mkMatch_headOk (hb : b.Plain) (es : List (T × V)) : Heads HeadOk (mkMatch inst b 10 es) := by
  unfold mkMatch
  rw [hb.1]
  simp only [not_opLike_of_readable hb.2, Bool.false_eq_true, if_false]
  split
  · exact heads_gshowString fun s => .inl (headOk_name hb.2 s)
  · refine heads_paren (Int.le_refl _) ((heads_gshowString fun s => ?_).gdot _)
    obtain ⟨c, t, htext, hc⟩ := headOk_name hb.2 (' ' :: s)
    refine .inr ⟨c, t, ?_, .inl hc⟩
    rw [← htext]
    simp

theorem showsPrec_headOk (hD : ∀ t d, decls t = some d → Declared d) {v : Value Unit}
    (hv : Typed decls unitTy Body.Plain t v) : Heads HeadOk ((instances decls unitOwn n t).showsPrec 10 v) := by
  cases n with
  | zero => exact fun g hg => nomatch hg
  | succ n =>
    cases hv with
    | con ht hb hok hlen _ =>
      rw [instances_con ht]
      dsimp only
      rw [deriveShow_con (hD _ _ ht) hb hlen]
      exact mkMatch_headOk hok _
    | ext ht hx _ _ =>
      rw [instances_ext ht]
      rintro g ⟨⟩ s
      exact .inr ⟨')', s, rfl, .inr rfl⟩

/-! ### The text of the other constructors -/

theorem mkMatch_record {f : Name} {fs : List Name} (hlab : b.labels = f :: fs) (d : ℤ) (e : T × V) (es : List (T × V)) :
    Heads (fun r => ∃ u, r = getIdent b.constructor ++ ' ' :: '\x7b' :: u) (mkMatch inst b d (e :: es)) := by
  unfold mkMatch
  rw [hlab]
  dsimp only
  refine Heads.gdot (Heads.foldr1 (f := gpar) (Heads.gdot (heads_gshowString fun s => ?_) _) (fun c => Heads.gdot ?_ _) _) _
  · exact ⟨_, by simp; rfl⟩
  · exact Heads.gdot (heads_gshowString fun s => ⟨_, by simp; rfl⟩) _

theorem mkMatch_name (hlab : b.labels = []) (hop : isOpLike b.constructor = false) (es : List (T × V)) :
    Heads (fun r => ∃ u, r = getIdent b.constructor ++ u) (mkMatch inst b 0 es) := by
  unfold mkMatch
  rw [hlab]
  simp only [hop, Bool.false_eq_true, if_false]
  split
  · exact heads_gshowString fun s => ⟨s, rfl⟩
  · exact ((heads_gshowString fun s => ⟨_, List.append_assoc ..⟩).gdot _).gshowParen (by decide)

theorem mkMatch_binary (hlab : b.labels = []) (hop : isOpLike b.constructor = true) {P : Str → Prop} {e₁ e₂ : T × V}
    (h : Heads P (gshowsPrec inst e₁)) : Heads P (mkMatch inst b 0 [e₁, e₂]) := by
  unfold mkMatch
  rw [hlab]
  simp only [hop, if_true]
  exact ((h.gcomp _).gcomp _).gshowParen (by decide)

theorem mkMatch_operator (hlab : b.labels = []) (hop : isOpLike b.constructor = true) {es : List (T × V)}
    (hes : es.length ≠ 2) :
    Heads (fun r => ∃ u, r = '(' :: (getIdent b.constructor ++ ')' :: u)) (mkMatch inst b 0 es) := by
  have hhead : Heads (fun r => ∃ u, r = '(' :: (getIdent b.constructor ++ ')' :: u))
      (gshowString ('(' :: (getIdent b.constructor ++ [')']))) :=
    heads_gshowString fun s => ⟨s, by simp⟩
  unfold mkMatch
  rw [hlab]
  simp only [hop, if_true]
  split
  · exact absurd rfl hes
  · exact (hhead.foldr1 (fun c => hhead.gcomp c) _).gshowParen (by decide)

/-! ### It has no parse -/

section
variable {I : T → Inst (Value Unit)} {c : Char} {cs : Str}

theorem starts_name (hname : getIdent b.constructor = c :: cs) (hc : isLarge c = true ∨ c = ':')
    (h : Starts I b (getIdent b.constructor ++ r)) :
    (isLarge c = true → isReadable (getIdent b.constructor) = true) ∧
      (b.types ≠ [] → ∃ zs, readFields I b.types r = some zs ∧ zs ≠ []) := by
  obtain ⟨u, hlex, hread⟩ := h
  rw [hname, List.cons_append] at hlex
  obtain ⟨t, ht, happ, hlarge⟩ := lex_large hc hlex
  obtain rfl : cs = t := List.cons_inj_right c |>.1 ht
  obtain rfl : u = r := List.append_cancel_left happ
  exact ⟨fun h => hname ▸ hlarge h, hread⟩

theorem name_not_open (hname : getIdent b.constructor = c :: cs) (hc : isLarge c = true ∨ c = ':') :
    (['('], u) ∉ lex (getIdent b.constructor ++ r) := by
  intro hlex
  rw [hname, List.cons_append] at hlex
  obtain ⟨t, ht, -⟩ := lex_large hc hlex
  obtain rfl : '(' = c := (List.cons.inj ht).1
  clear hname hlex
  revert hc
  decide

theorem parses_name (hname : getIdent b.constructor = c :: cs) (hc : isLarge c = true ∨ c = ':')
    (h : Parses I b (getIdent b.constructor ++ r)) : Starts I b (getIdent b.constructor ++ r) := by
  rcases h with h | ⟨-, u, hlex, -⟩
  · exact h
  · exact absurd hlex (name_not_open hname hc)

theorem starts_headOk_ne (hname : getIdent b.constructor = ':' :: cs) (hc : isAlpha c = true ∨ c = ')' ∨ c = '(') :
    ¬ Starts I b (c :: r) := by
  rintro ⟨u, hlex, -⟩
  rw [hname] at hlex
  rcases hc with hc | rfl | rfl
  · rw [lex_alpha hc] at hlex
    obtain ⟨h, -⟩ := Prod.mk.inj (List.mem_singleton.1 hlex)
    obtain ⟨rfl, -⟩ := List.cons.inj h
    revert hc
    decide
  · rw [lex_close] at hlex
    obtain ⟨h, -⟩ := Prod.mk.inj (List.mem_singleton.1 hlex)
    exact absurd (List.cons.inj h).1 (by decide)
  · rw [lex_open] at hlex
    obtain ⟨h, -⟩ := Prod.mk.inj (List.mem_singleton.1 hlex)
    exact absurd (List.cons.inj h).1 (by decide)

theorem not_open (hc : isAlpha c = true ∨ c = ')') : (['('], u) ∉ lex (c :: r) := by
  intro hlex
  rcases hc with hc | rfl
  · rw [lex_alpha hc] at hlex
    obtain ⟨h, -⟩ := Prod.mk.inj (List.mem_singleton.1 hlex)
    obtain ⟨rfl, -⟩ := List.cons.inj h
    revert hc
    decide
  · rw [lex_close] at hlex
    obtain ⟨h, -⟩ := Prod.mk.inj (List.mem_singleton.1 hlex)
    exact absurd (List.cons.inj h).1 (by decide)

theorem not_parses_headOk (hname : getIdent b.constructor = ':' :: cs) (hr : HeadOk r) : ¬ Parses I b r := by
  rcases hr with ⟨c, t, rfl, hc⟩ | ⟨c, t, rfl, hc⟩
  · rintro (h | ⟨-, u, hlex, -⟩)
    · exact starts_headOk_ne hname (.inl hc) h
    · exact not_open (.inl hc) hlex
  · rintro (h | ⟨-, u, hlex, hu⟩)
    · exact starts_headOk_ne hname (.inr (.inr rfl)) h
    · rw [lex_open] at hlex
      obtain ⟨-, rfl⟩ := Prod.mk.inj (List.mem_singleton.1 hlex)
      rcases hu with h | ⟨u', hlex'⟩
      · exact starts_headOk_ne hname (hc.imp_right .inl) h
      · exact not_open hc hlex'

end

theorem isOpLike_colon {m : Name} {cs : Str} (hname : getIdent m = ':' :: cs) : isOpLike m = true := by
  unfold isOpLike
  rw [show m.ident = ':' :: cs from hname]
  rfl

theorem isOpLike_large {m : Name} {c : Char} {cs : Str} (hname : getIdent m = c :: cs) (hc : isLarge c = true) :
    isOpLike m = false := by
  unfold isOpLike
  rw [show m.ident = c :: cs from hname]
  refine decide_eq_false fun hmem => ?_
  have hall : ("!#$%&*+./<=>?@\\^-~:|".toList.all fun d => !isLarge d) = true := by decide
  have hnot := List.all_eq_true.1 hall c hmem
  rw [hc] at hnot
  cases hnot

/-- A constructor whose text has a parse is shown in prefix form, under a name the lexer reads. -/
theorem plain_of_parses (hD : ∀ t d, decls t = some d → Declared d) {data : Data T} (hd : Declared data)
    (hmem : b ∈ data.body) {vs : List (Value Unit)} (hlen : vs.length = b.types.length)
    (hvs : ∀ p ∈ b.types.zip vs, Typed decls unitTy Body.Plain p.1 p.2) {g : ShowS}
    (hshow : mkMatch (instances decls unitOwn n) b 0 (b.types.zip vs) = some g) {s : Str}
    (h : Parses (instances decls unitOwn n) b (g s)) : b.Plain := by
  obtain ⟨c, cs, hname, hc⟩ := hd.named b hmem
  have hstuck : ∀ {tok u r}, lex r = [(tok, u)] → tok = ['\x7b'] ∨ tok = [')'] → b.types ≠ [] →
      ¬ ∃ zs, readFields (instances decls unitOwn n) b.types r = some zs ∧ zs ≠ [] :=
    fun hlex htok hts ⟨zs, hzs, hne⟩ => hne (readFields_stuck hD hlex htok hts hzs)
  cases hlab : b.labels with
  | cons f fs =>
    have hts : b.types ≠ [] := by
      intro hts
      rcases hd.labelled b hmem with h | h
      · rw [hlab] at h
        cases h
      · rw [hlab, hts] at h
        cases h
    obtain ⟨e, es, hzip⟩ : ∃ e es, b.types.zip vs = e :: es := by
      refine List.exists_cons_of_ne_nil fun hnil => hts ?_
      have hzero := congrArg List.length hnil
      rw [List.length_zip, hlen, Nat.min_self] at hzero
      exact List.length_eq_zero_iff.1 hzero
    rw [hzip] at hshow
    obtain ⟨u, htext⟩ := mkMatch_record hlab 0 e es g hshow s
    rw [htext] at h
    have hstarts := starts_name hname hc (parses_name hname hc h)
    have hlex : lex (' ' :: '\x7b' :: u) = [(['\x7b'], u)] :=
      (lex_space _).trans (lex_single u (by decide) (by decide) (by decide))
    exact absurd (hstarts.2 hts) (hstuck hlex (.inl rfl) hts)
  | nil =>
    refine ⟨hlab, ?_⟩
    rcases hc with hlarge | rfl
    · have hop : isOpLike b.constructor = false := isOpLike_large hname hlarge
      obtain ⟨u, htext⟩ := mkMatch_name hlab hop _ g hshow s
      rw [htext] at h
      exact (starts_name hname (.inl hlarge) (parses_name hname (.inl hlarge) h)).1 hlarge
    · have hop : isOpLike b.constructor = true := isOpLike_colon hname
      exfalso
      by_cases htwo : (b.types.zip vs).length = 2
      · match hzip : b.types.zip vs, htwo with
        | [e₁, e₂], _ =>
          rw [hzip] at hshow hvs
          have hhead := showsPrec_headOk (n := n) hD (hvs e₁ List.mem_cons_self)
          exact not_parses_headOk hname (mkMatch_binary hlab hop hhead g hshow s) h
      · obtain ⟨u, htext⟩ := mkMatch_operator hlab hop htwo g hshow s
        rw [htext] at h
        rcases h with h | ⟨hts, u', hlex, h⟩
        · exact starts_headOk_ne hname (.inr (.inr rfl)) h
        · rw [lex_open] at hlex
          obtain ⟨-, rfl⟩ := Prod.mk.inj (List.mem_singleton.1 hlex)
          rcases h with h | ⟨u'', hlex'⟩
          · have hfields := (starts_name hname (.inr rfl) h).2 hts
            exact hstuck (lex_close u) (.inr rfl) hts hfields
          · exact name_not_open hname (.inr rfl) hlex'

/-! ### When the law holds -/

theorem exists_values {P : T → Value Unit → Prop} {ts : List T} (h : ∀ t ∈ ts, ∃ v, P t v) :
    ∃ vs : List (Value Unit), vs.length = ts.length ∧ ∀ p ∈ ts.zip vs, P p.1 p.2 := by
  induction ts with
  | nil => exact ⟨[], rfl, fun p hp => absurd hp List.not_mem_nil⟩
  | cons t ts ih =>
    obtain ⟨vs, hlen, hvs⟩ := ih fun t' ht' => h t' (List.mem_cons_of_mem _ ht')
    obtain ⟨v, hv⟩ := h t List.mem_cons_self
    refine ⟨v :: vs, congrArg Nat.succ hlen, fun p hp => ?_⟩
    rcases List.mem_cons.1 hp with rfl | hp
    · exact hv
    · exact hvs p hp

/-- The law, for all the instances that the other types may have. -/
def ShowReadInverse (decls : T → Option (Data T)) : Prop :=
  ∀ (X : Type) (extTy : T → X → List T → Prop) own, Lawful decls extTy own → ∀ t v, Typed decls extTy (fun _ => True) t v →
    ∃ N, ∀ n ≥ N, RoundTrip (instances decls own n t) v

/-- The law for one constructor with lawful fields makes it plain. -/
theorem plain_of_roundTrip (hD : ∀ t d, decls t = some d → Declared d) {data : Data T} (ht : decls t = some data)
    (hmem : b ∈ data.body) {vs : List (Value Unit)} (hlen : vs.length = b.types.length)
    (hvs : ∀ p ∈ b.types.zip vs, Typed decls unitTy Body.Plain p.1 p.2)
    (h : RoundTrip (instances decls unitOwn (n + 1) t) (.con b.constructor vs)) : b.Plain := by
  have hd := hD t data ht
  rw [instances_con ht] at h
  obtain ⟨w, hshow, hread⟩ := h 0
  have hzs := hread [] (.inl stops_nil)
  dsimp only at hshow hzs
  rw [deriveShow_con hd hmem hlen] at hshow
  rw [deriveRead_eq] at hzs
  obtain ⟨b', hb', zs, hbody, hp⟩ := mem_comp hzs (List.mem_singleton.2 rfl)
  obtain ⟨⟨vs', hcon⟩, hparses⟩ := readBody_parse hbody hp
  obtain ⟨hname, -⟩ := Value.con.inj hcon
  obtain rfl : b' = b := hd.unique hmem hb' (by rw [hname])
  exact plain_of_parses hD hd hmem hlen hvs hshow hparses

theorem Typed.mono {X : Type} {extTy : T → X → List T → Prop} {ok ok' : Body T → Prop} {t : T} {v : Value X}
    (h : ∀ b, ok b → ok' b) (hv : Typed decls extTy ok t v) : Typed decls extTy ok' t v := by
  induction hv with
  | con ht hb hok hlen _ ih => exact .con ht hb (h _ hok) hlen ih
  | ext ht hx hlen _ ih => exact .ext ht hx hlen ih

/-- By induction on the value, which also gives a value whose other parts are trivial. -/
theorem typed_plain (hD : ∀ t d, decls t = some d → Declared d) (hlaw : ShowReadInverse decls) {X : Type}
    {extTy : T → X → List T → Prop} {t : T} {v : Value X} (hv : Typed decls extTy (fun _ => True) t v) :
    Typed decls extTy Body.Plain t v ∧ ∃ v', Typed decls unitTy Body.Plain t v' := by
  induction hv with
  | @con t data b args ht hmem _ hlen _ ih =>
    have hex : ∀ t' ∈ b.types, ∃ v', Typed decls unitTy Body.Plain t' v' := by
      intro t' ht'
      have hzip : (b.types.zip args).map Prod.fst = b.types := List.map_fst_zip (by omega)
      rw [← hzip] at ht'
      obtain ⟨p, hp, rfl⟩ := List.mem_map.1 ht'
      exact (ih p hp).2
    obtain ⟨vs, hvslen, hvs⟩ := exists_values hex
    have htyped := Typed.con ht hmem trivial hvslen fun p hp => (hvs p hp).mono fun _ _ => trivial
    obtain ⟨N, hN⟩ := hlaw Unit unitTy unitOwn unitOwn_lawful t _ htyped
    have hplain := plain_of_roundTrip hD ht hmem hvslen hvs (hN (N + 1) (by omega))
    exact ⟨.con ht hmem hplain hlen fun p hp => (ih p hp).1, _, .con ht hmem hplain hvslen hvs⟩
  | ext ht hx hlen _ ih =>
    refine ⟨.ext ht hx hlen fun p hp => (ih p hp).1, .ext () [], ?_⟩
    exact .ext ht rfl rfl fun p hp => absurd hp List.not_mem_nil

theorem showReadInverse_iff (hD : ∀ t d, decls t = some d → Declared d) : ShowReadInverse decls ↔
    ∀ (X : Type) (extTy : T → X → List T → Prop) t v, Typed decls extTy (fun _ => True) t v →
      Typed decls extTy Body.Plain t v := by
  constructor
  · intro hlaw X extTy t v hv
    exact (typed_plain hD hlaw hv).1
  · intro hplain X extTy own hown t v hv
    obtain ⟨N, hN⟩ := inverse_plain hD hown (hplain X extTy t v hv)
    exact ⟨N, fun n hn => (hN n hn).roundTrip⟩

end

def unitBody : Body Bool := ⟨⟨"M".toList, "U".toList⟩, [], []⟩

def pairBody (c : Str) : Body Bool := ⟨⟨"M".toList, c⟩, [], [false, false]⟩

/-- `data U = U` and `data P = c U U`. -/
def pairDecls (c : Str) : Bool → Option (Data Bool)
  | false => some ⟨[unitBody]⟩
  | true => some ⟨[pairBody c]⟩

def unitValue : Value Unit := .con unitBody.constructor []

def pairValue (c : Str) : Value Unit := .con (pairBody c).constructor [unitValue, unitValue]

theorem pairDecls_declared {c : Char} {cs : Str} (hc : isLarge c = true ∨ c = ':') {t : Bool} {d : Data Bool}
    (hd : pairDecls (c :: cs) t = some d) : Declared d := by
  cases t <;> obtain rfl := Option.some.inj hd
  · refine ⟨by decide, fun b hb => ?_, fun b hb => .inl ?_⟩ <;> obtain rfl := List.mem_singleton.1 hb
    · exact ⟨'U', [], rfl, .inl (by decide)⟩
    · rfl
  · refine ⟨List.nodup_singleton _, fun b hb => ?_, fun b hb => .inl ?_⟩ <;> obtain rfl := List.mem_singleton.1 hb
    · exact ⟨c, cs, rfl, hc⟩
    · rfl

theorem pairValue_typed (c : Str) : Typed (pairDecls c) unitTy (fun _ => True) true (pairValue c) := by
  refine .con (b := pairBody c) rfl List.mem_cons_self trivial rfl fun p hp => ?_
  obtain rfl : p = (false, unitValue) := by simpa [pairBody] using hp
  exact .con (b := unitBody) rfl List.mem_cons_self trivial rfl fun p hp => absurd hp List.not_mem_nil

example : ((instances (pairDecls ":+".toList) unitOwn 3 true).showsPrec 0 (pairValue ":+".toList)).map (fun g => g []) =
    some "U :+ U".toList := by decide

example : ((instances (pairDecls ":+".toList) unitOwn 3 true).readsPrec 0 "U :+ U".toList).map List.length = some 0 := by
  decide +kernel

theorem infix_not_inverse : ¬ ShowReadInverse (pairDecls ":+".toList) := by
  intro hlaw
  have hD : ∀ t d, pairDecls [':', '+'] t = some d → Declared d := fun t d => pairDecls_declared (.inr rfl)
  obtain ⟨hplain, -⟩ := typed_plain hD hlaw (pairValue_typed _)
  have hbody : ∀ {t v}, Typed (pairDecls ":+".toList) unitTy Body.Plain t v → t = true → ∃ x ps, v = .ext x ps := by
    intro t v hv ht
    subst ht
    cases hv with
    | con hd hb hok _ _ =>
      obtain rfl := Option.some.inj hd
      obtain rfl := List.mem_singleton.1 hb
      exact absurd hok.2 (by decide)
    | ext => exact ⟨_, _, rfl⟩
  obtain ⟨x, ps, hv⟩ := hbody hplain rfl
  cases hv

/-- A plain pair. -/
theorem pair_inverse : ShowReadInverse (pairDecls "P".toList) := by
  have hD : ∀ t d, pairDecls ['P'] t = some d → Declared d := fun t d => pairDecls_declared (.inl (by decide))
  refine (showReadInverse_iff hD).2 fun X extTy t v hv => ?_
  induction hv with
  | @con t d b args ht hb _ hlen _ ih =>
    refine .con ht hb ?_ hlen ih
    cases t <;> obtain rfl := Option.some.inj ht <;> obtain rfl := List.mem_singleton.1 hb <;> exact ⟨rfl, by decide⟩
  | ext ht hx hlen _ ih => exact .ext ht hx hlen ih

end Jhc.Deriving
