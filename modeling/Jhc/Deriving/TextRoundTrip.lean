import Jhc.Deriving.Text
import Jhc.Text.Read
import Mathlib.Data.List.Nodup

/-!
# Derived Show and Read are inverse

On values whose constructors are shown in prefix form under a name that the lexer reads
whole. The other constructors are shown in a form that the derived `readsPrec` never reads.
-/

namespace Jhc.Deriving
open Jhc.Text

/-! ### The law -/

/-- Reading the text of the value gives the value and what follows, and nothing else. -/
def RoundTrip {V : Type} (I : Inst V) (v : V) : Prop :=
  ∀ d, ∃ w, I.showsPrec d v = some (showString w) ∧ ∀ s, Ends w s → I.readsPrec d (w ++ s) = some [(v, s)]

/-- What a field relies on: the text is made of whole tokens, and is also read after a space. -/
def InverseAt {V : Type} (I : Inst V) (v : V) : Prop :=
  ∀ d, ∃ w, I.showsPrec d v = some (showString w) ∧ Whole w ∧ ∀ s, Ends w s →
    I.readsPrec d (w ++ s) = some [(v, s)] ∧ I.readsPrec d (' ' :: (w ++ s)) = some [(v, s)]

theorem InverseAt.roundTrip {V : Type} {I : Inst V} {v : V} (h : InverseAt I v) : RoundTrip I v := by
  intro d
  obtain ⟨w, hshow, -, hread⟩ := h d
  exact ⟨w, hshow, fun s hs => (hread s hs).1⟩

/-- Shown in prefix form, under a name that the lexer reads whole. -/
def Body.Plain {T : Type} (b : Body T) : Prop := b.labels = [] ∧ isReadable (getIdent b.constructor) = true

/-- The letters that start the name of a constructor (Lexer.x:29). -/
def isLarge (c : Char) : Bool :=
  isUpper c || ('\xc0' ≤ c && c ≤ '\xd6') || ('\xd8' ≤ c && c ≤ '\xde')

structure Declared {T : Type} (d : Data T) : Prop where
  distinct : (d.body.map fun b => getIdent b.constructor).Nodup
  named : ∀ b ∈ d.body, ∃ c cs, getIdent b.constructor = c :: cs ∧ (isLarge c = true ∨ c = ':')
  labelled : ∀ b ∈ d.body, b.labels = [] ∨ b.labels.length = b.types.length

section
variable {T X : Type}

section
variable (decls : T → Option (Data T)) (extTy : T → X → List T → Prop)

/-- Values of the types, with constructors of the kind `ok`. -/
inductive Typed (ok : Body T → Prop) : T → Value X → Prop
  | con {t : T} {d : Data T} {b : Body T} {args : List (Value X)} (hd : decls t = some d) (hb : b ∈ d.body) (hok : ok b)
      (hlen : args.length = b.types.length) (hargs : ∀ p ∈ b.types.zip args, Typed ok p.1 p.2) :
      Typed ok t (.con b.constructor args)
  | ext {t : T} {x : X} {ts : List T} {parts : List (Value X)} (ht : decls t = none) (hx : extTy t x ts)
      (hlen : parts.length = ts.length) (hparts : ∀ p ∈ ts.zip parts, Typed ok p.1 p.2) : Typed ok t (.ext x parts)

/-- The instances of the other types satisfy the law when those of the parts do. -/
def Lawful (own : T → (T → Inst (Value X)) → Inst (Value X)) : Prop :=
  ∀ t x ts parts inst, decls t = none → extTy t x ts → parts.length = ts.length →
    (∀ p ∈ ts.zip parts, InverseAt (inst p.1) p.2) → InverseAt (own t inst) (.ext x parts)

end

/-! ### Comprehensions -/

section
variable {α β : Type} {k : α → Option (List β)}

theorem comp_single (x : α) (k : α → Option (List β)) : comp [x] k = k x := by
  unfold comp
  rw [List.mapM_cons, List.mapM_nil]
  cases k x <;> simp

theorem comp_cons {x : α} {xs : List α} {ys zs : List β} (hx : k x = some ys) (hxs : comp xs k = some zs) :
    comp (x :: xs) k = some (ys ++ zs) := by
  obtain ⟨zss, hzss, rfl⟩ := Option.map_eq_some_iff.1 hxs
  unfold comp
  rw [List.mapM_cons, hx, hzss]
  simp

theorem comp_empty {xs : List α} (h : ∀ x ∈ xs, k x = some []) : comp xs k = some [] := by
  induction xs with
  | nil => rfl
  | cons x xs ih => exact comp_cons (h x List.mem_cons_self) (ih fun y hy => h y (List.mem_cons_of_mem _ hy))

/-- One generator has results, the others have none. -/
theorem comp_unique {x : α} {l₁ l₂ : List α} {ys : List β} (hx : k x = some ys) (h₁ : ∀ y ∈ l₁, k y = some [])
    (h₂ : ∀ y ∈ l₂, k y = some []) : comp (l₁ ++ x :: l₂) k = some ys := by
  induction l₁ with
  | nil => simpa using comp_cons hx (comp_empty h₂)
  | cons y l₁ ih =>
    have hrest := ih fun z hz => h₁ z (List.mem_cons_of_mem _ hz)
    exact comp_cons (h₁ y List.mem_cons_self) hrest

theorem comp_cons_some {x : α} {xs : List α} {ys : List β} (h : comp (x :: xs) k = some ys) :
    ∃ zs ws, k x = some zs ∧ comp xs k = some ws ∧ ys = zs ++ ws := by
  unfold comp at h ⊢
  rw [List.mapM_cons] at h
  cases hx : k x with
  | none => simp [hx] at h
  | some zs =>
    cases hxs : xs.mapM k with
    | none => simp [hx, hxs] at h
    | some wss => exact ⟨zs, wss.flatten, rfl, rfl, by simpa [hx, hxs] using h.symm⟩

theorem mem_comp {xs : List α} {ys : List β} {y : β} (h : comp xs k = some ys) (hy : y ∈ ys) :
    ∃ x ∈ xs, ∃ zs, k x = some zs ∧ y ∈ zs := by
  induction xs generalizing ys with
  | nil =>
    obtain rfl : [] = ys := Option.some.inj h
    cases hy
  | cons x xs ih =>
    obtain ⟨zs, ws, hx, hxs, rfl⟩ := comp_cons_some h
    rcases List.mem_append.1 hy with hy | hy
    · exact ⟨x, List.mem_cons_self, zs, hx, hy⟩
    · obtain ⟨x', hx', hres⟩ := ih hxs hy
      exact ⟨x', List.mem_cons_of_mem _ hx', hres⟩

end

/-! ### The readers of a constructor -/

section
variable {α : Type} {g : ReadS α} {n : ℕ} {r u tok : Str}

theorem readParen_false {xs ys : List (α × Str)} (hg : g r = some xs) (hm : readParen.mandatory g n r = some ys) :
    readParen n false g r = some (xs ++ ys) := by
  simp [readParen, readParen.optional, hg, hm]

theorem readParen_congr {b : Bool} {r' : Str} (hg : g r = g r') (hlex : lex r = lex r') :
    readParen n b g r = readParen n b g r' := by
  have hmand : readParen.mandatory g n r = readParen.mandatory g n r' := by
    cases n with
    | zero => rfl
    | succ n => rw [readParen.mandatory, readParen.mandatory, hlex]
  cases b with
  | true => simpa [readParen] using hmand
  | false => simp [readParen, readParen.optional, hg, hmand]

theorem mandatory_miss (hlex : lex r = [(tok, u)]) (hopen : tok ≠ ['(']) :
    readParen.mandatory g (n + 1) r = some [] := by
  rw [readParen.mandatory, hlex, comp_single]
  exact if_neg hopen

theorem mandatory_open (hlex : lex r = [(['('], u)]) {xs ys : List (α × Str)} (hg : g u = some xs)
    (hm : readParen.mandatory g n u = some ys) : readParen.mandatory g (n + 1) r =
      comp (xs ++ ys) fun x => some (((lex x.2).filter fun y => y.1 = [')']).map fun y => (x.1, y.2)) := by
  rw [readParen.mandatory, hlex, comp_single]
  refine (if_pos rfl).trans ?_
  rw [hg, hm]
  rfl

end

variable {inst : T → Inst (Value X)} {n : ℕ} {b : Body T} {d : ℤ} {r u tok : Str}

/-- What follows the generator of a constructor is a list of fields. -/
def readCon (inst : T → Inst (Value X)) (b : Body T) : ReadS (Value X) := fun r =>
  comp ((lex r).filter fun x => x.1 = getIdent b.constructor) fun x =>
    (readFields inst b.types x.2).map (·.map fun y => (.con b.constructor y.1, y.2))

theorem readBody_nullary (h : b.types = []) : readBody inst n b d r =
    some (((lex r).filter fun x => x.1 = getIdent b.constructor).map fun x => (.con b.constructor [], x.2)) := by
  unfold readBody
  rw [h]
  rfl

theorem readBody_fields (h : b.types ≠ []) :
    readBody inst n b d r = readParen n (decide (d > 9)) (readCon inst b) r := by
  have hcon : readCon inst b = fun ine => comp ((lex ine).filter fun x => x.1 = getIdent b.constructor) fun x => do
      return (← readFields inst b.types x.2).map fun y => (.con b.constructor y.1, y.2) := by
    funext ine
    unfold readCon
    congr 1
    funext x
    cases readFields inst b.types x.2 <;> rfl
  unfold readBody
  rw [if_neg (by simpa using h), hcon]

/-- A constructor is read by what the lexer takes from the input. -/
theorem readBody_congr {r' : Str} (hlex : lex r = lex r') : readBody inst n b d r = readBody inst n b d r' := by
  by_cases h : b.types = []
  · rw [readBody_nullary h, readBody_nullary h, hlex]
  · rw [readBody_fields h, readBody_fields h]
    exact readParen_congr (by rw [readCon, readCon, hlex]) hlex

theorem filter_miss {name : Str} (hlex : lex r = [(tok, u)]) (hne : tok ≠ name) :
    (lex r).filter (fun x => x.1 = name) = [] := by
  rw [hlex]
  simp [hne]

theorem readCon_miss (hlex : lex r = [(tok, u)]) (hne : tok ≠ getIdent b.constructor) : readCon inst b r = some [] := by
  rw [readCon, filter_miss hlex hne]
  rfl

theorem readBody_miss (hlex : lex r = [(tok, u)]) (hne : tok ≠ getIdent b.constructor) (hopen : tok ≠ ['(']) :
    readBody inst (n + 1) b d r = some [] := by
  by_cases h : b.types = []
  · rw [readBody_nullary h, filter_miss hlex hne, List.map_nil]
  · rw [readBody_fields h]
    by_cases hd : d > 9
    · rw [decide_eq_true hd]
      exact mandatory_miss hlex hopen
    · rw [decide_eq_false hd]
      exact readParen_false (readCon_miss hlex hne) (mandatory_miss hlex hopen)

theorem readBody_miss_open (hlex : lex r = [(['('], u)]) {u' : Str} (hlex' : lex u = [(tok, u')])
    (hne : tok ≠ getIdent b.constructor) (hne' : ['('] ≠ getIdent b.constructor) (hopen : tok ≠ ['(']) :
    readBody inst (n + 2) b d r = some [] := by
  by_cases h : b.types = []
  · rw [readBody_nullary h, filter_miss hlex hne', List.map_nil]
  · have hmand : readParen.mandatory (readCon inst b) (n + 2) r = some [] :=
      mandatory_open hlex (readCon_miss hlex' hne) (mandatory_miss hlex' hopen)
    rw [readBody_fields h]
    by_cases hd : d > 9
    · rw [decide_eq_true hd]
      exact hmand
    · rw [decide_eq_false hd]
      exact readParen_false (readCon_miss hlex hne') hmand

/-! ### Fields -/

/-- The fields with their texts. -/
inductive Fields (inst : T → Inst (Value X)) : List T → List (Value X) → List Str → Prop
  | nil : Fields inst [] [] []
  | cons {t : T} {v : Value X} {w : Str} {ts : List T} {vs : List (Value X)} {ws : List Str}
      (hshow : (inst t).showsPrec 10 v = some (showString w)) (hw : Whole w)
      (hread : ∀ s, Lexes (w ++ s) s → (inst t).readsPrec 10 (' ' :: (w ++ s)) = some [(v, s)])
      (h : Fields inst ts vs ws) : Fields inst (t :: ts) (v :: vs) (w :: ws)

def fieldsText (ws : List Str) : Str := ws.flatMap (' ' :: ·)

variable {ts : List T} {vs : List (Value X)} {ws : List Str}

theorem exists_fields (hlen : vs.length = ts.length) (h : ∀ p ∈ ts.zip vs, InverseAt (inst p.1) p.2) :
    ∃ ws, Fields inst ts vs ws := by
  induction ts generalizing vs with
  | nil =>
    obtain rfl : vs = [] := List.length_eq_zero_iff.1 hlen
    exact ⟨[], .nil⟩
  | cons t ts ih =>
    match vs, hlen with
    | v :: vs, hlen =>
      obtain ⟨ws, hws⟩ := ih (Nat.succ.inj hlen) fun p hp => h p (List.mem_cons_of_mem _ hp)
      obtain ⟨w, hshow, hw, hread⟩ := h (t, v) List.mem_cons_self 10
      exact ⟨w :: ws, .cons hshow hw (fun s hs => (hread s (.inr hs)).2) hws⟩

theorem Fields.whole (h : Fields inst ts vs ws) : ∀ w ∈ ws, Whole w := by
  induction h with
  | nil => exact fun w hw => absurd hw List.not_mem_nil
  | cons hshow hw hread h ih =>
    intro w' hw'
    rcases List.mem_cons.1 hw' with rfl | hw'
    · exact hw
    · exact ih w' hw'

theorem Fields.length (h : Fields inst ts vs ws) : ws.length = ts.length := by
  induction h with
  | nil => rfl
  | cons hshow hw hread h ih => rw [List.length_cons, List.length_cons, ih]

theorem show_fields (h : Fields inst ts vs ws) (hne : ts ≠ []) :
    ∃ g, (foldr1 gcomp ((ts.zip vs).map (gshowsPrec inst))).join = some g ∧
      ∀ s, ' ' :: g s = fieldsText ws ++ s := by
  induction h with
  | nil => exact absurd rfl hne
  | @cons t v w ts vs ws hshow hw hread h ih =>
    cases h with
    | nil =>
      refine ⟨showString w, ?_, fun s => by simp [fieldsText, showString]⟩
      simp [foldr1, gshowsPrec, hshow]
    | @cons t' v' w' ts vs ws hshow' hw' hread' h =>
      obtain ⟨g, hg, htext⟩ := ih (by simp)
      obtain ⟨o, ho, hjoin⟩ : ∃ o, foldr1 gcomp (((t' :: ts).zip (v' :: vs)).map (gshowsPrec inst)) = some o ∧
          o = some g := by
        cases hfold : foldr1 gcomp (((t' :: ts).zip (v' :: vs)).map (gshowsPrec inst)) with
        | none =>
          rw [hfold] at hg
          cases hg
        | some o =>
          rw [hfold] at hg
          exact ⟨o, rfl, hg⟩
      refine ⟨showString w ∘ (' ' :: ·) ∘ g, ?_, fun s => ?_⟩
      · have hcons : foldr1 gcomp (((t :: t' :: ts).zip (v :: v' :: vs)).map (gshowsPrec inst)) =
            some (gcomp (gshowsPrec inst (t, v)) o) := by
          simp only [List.zip_cons_cons, List.map_cons] at ho ⊢
          rw [foldr1, ho]
          rfl
          simp
        rw [hcons, hjoin, gshowsPrec, hshow]
        rfl
      · have hs := htext s
        simp only [Function.comp, showString, fieldsText, List.flatMap_cons, List.cons_append, List.append_assoc] at hs ⊢
        rw [hs]

theorem read_fields (h : Fields inst ts vs ws) {s : Str} (hlast : ∀ w, ws.getLast? = some w → Lexes (w ++ s) s) :
    readFields inst ts (fieldsText ws ++ s) = some [(vs, s)] := by
  induction h with
  | nil => rfl
  | @cons t v w ts vs ws hshow hw hread h ih =>
    have hnext : Lexes (w ++ (fieldsText ws ++ s)) (fieldsText ws ++ s) := by
      cases h with
      | nil => exact hlast w rfl
      | cons => exact hw.2 _ (stops_space _)
    have hrest : readFields inst ts (fieldsText ws ++ s) = some [(vs, s)] := by
      refine ih fun w' hw' => hlast w' ?_
      cases ws with
      | nil => cases hw'
      | cons w₁ ws => rw [List.getLast?_cons_cons, hw']
    have htext : fieldsText (w :: ws) ++ s = ' ' :: (w ++ (fieldsText ws ++ s)) := by
      simp [fieldsText]
    rw [htext, readFields, hread _ hnext]
    simp only [Option.bind_eq_bind, Option.bind_some, comp_single, hrest]
    rfl

theorem fields_stops {s : Str} (hs : Stops s) (ws : List Str) : Stops (fieldsText ws ++ s) := by
  cases ws with
  | nil => exact hs
  | cons w ws => exact stops_space _

theorem fields_lexes (h : ∀ w ∈ ws, Whole w) {s : Str} (hs : Stops s) : Lexes (fieldsText ws ++ s) s := by
  induction ws with
  | nil => exact .refl _
  | cons w ws ih =>
    have hw := h w List.mem_cons_self
    have hnext := hw.2 _ (fields_stops hs ws)
    have htext : fieldsText (w :: ws) ++ s = ' ' :: (w ++ (fieldsText ws ++ s)) := by
      simp [fieldsText]
    rw [htext]
    exact (hnext.spaced hw.1).trans (ih fun w' hw' => h w' (List.mem_cons_of_mem _ hw'))

/-! ### A constructor in prefix form -/

theorem readCon_hit (h : Fields inst b.types vs ws) {s : Str} (hlex : lex r = [(getIdent b.constructor, fieldsText ws ++ s)])
    (hlast : ∀ w, ws.getLast? = some w → Lexes (w ++ s) s) : readCon inst b r = some [(.con b.constructor vs, s)] := by
  have hcon : (lex r).filter (fun x => x.1 = getIdent b.constructor) =
      [(getIdent b.constructor, fieldsText ws ++ s)] := by
    rw [hlex]
    simp
  rw [readCon, hcon, comp_single, read_fields h hlast]
  rfl

/-- The text of a constructor with the texts of its fields. -/
def conText (b : Body T) (ws : List Str) (ne : ℤ) : Str :=
  if b.types ≠ [] ∧ ne ≥ 10 then '(' :: (getIdent b.constructor ++ fieldsText ws ++ [')'])
  else getIdent b.constructor ++ fieldsText ws

theorem not_opLike_of_readable {c : Name} (h : isReadable (getIdent c) = true) : isOpLike c = false := by
  unfold isOpLike
  unfold getIdent at h
  match hc : c.ident, h with
  | x :: xs, h => exact decide_eq_false (not_mem_of_isAlpha (Bool.and_eq_true_iff.1 h).1 (by decide))

theorem mkMatch_plain (hb : b.Plain) (h : Fields inst b.types vs ws) :
    mkMatch inst b d (b.types.zip vs) = some (showString (conText b ws d)) := by
  unfold mkMatch conText
  rw [hb.1]
  simp only [not_opLike_of_readable hb.2, Bool.false_eq_true, if_false]
  by_cases hts : b.types = []
  · rw [hts] at h ⊢
    cases h
    simp [gshowString, fieldsText]
  · obtain ⟨g, hg, htext⟩ := show_fields h hts
    rw [if_neg (by simpa using hts), hg]
    by_cases hd : d ≥ 10
    · rw [if_pos ⟨hts, hd⟩]
      refine congrArg some (funext fun s => ?_)
      have hs := htext (')' :: s)
      simp [showParen, hd, showString, hs]
    · rw [if_neg fun h => hd h.2]
      refine congrArg some (funext fun s => ?_)
      simp [showParen, hd, showString, htext]

theorem readable_ne_nil {name : Str} (h : isReadable name = true) : name ≠ [] := by
  rintro rfl
  cases h

theorem name_lexes {name s : Str} (h : isReadable name = true) (hws : ∀ w ∈ ws, Whole w) (hs : Stops s) :
    Lexes (name ++ (fieldsText ws ++ s)) s :=
  .step (lex_readable_stops h (fields_stops hs ws)) (List.append_ne_nil_of_left_ne_nil (readable_ne_nil h) _)
    (fields_lexes hws hs)

theorem whole_conText (hb : b.Plain) (hws : ∀ w ∈ ws, Whole w) : Whole (conText b ws d) := by
  unfold conText
  split
  · refine ⟨List.cons_ne_nil _ _, fun s _ => ?_⟩
    have hbody := name_lexes hb.2 hws (stops_close s)
    have hclose : Lexes (')' :: s) s := .step (lex_close _) (List.cons_ne_nil _ _) (.refl _)
    simpa using Lexes.step (lex_open _) (List.cons_ne_nil _ _) (hbody.trans hclose)
  · refine ⟨List.append_ne_nil_of_left_ne_nil (readable_ne_nil hb.2) _, fun s hs => ?_⟩
    rw [List.append_assoc]
    exact name_lexes hb.2 hws hs

/-- The last field is read with the continuation of the whole text. -/
theorem last_lexes {name s : Str} (h : isReadable name = true) (hws : ∀ w ∈ ws, Whole w)
    (hs : Lexes (name ++ (fieldsText ws ++ s)) s) {w : Str} (hw : ws.getLast? = some w) : Lexes (w ++ s) s := by
  obtain ⟨init, rfl⟩ : ∃ init, ws = init ++ [w] := by
    have hsplit := List.dropLast_append_getLast? w hw
    exact ⟨_, hsplit.symm⟩
  have hwhole : w ≠ [] := (hws w (by simp)).1
  have hbefore := name_lexes h (fun w' hw' => hws w' (List.mem_append_left _ hw')) (stops_space (w ++ s))
  have htext : fieldsText (init ++ [w]) ++ s = fieldsText init ++ ' ' :: (w ++ s) := by
    simp [fieldsText]
  rw [htext] at hs
  rcases hbefore.linear hs with hlast | hlast
  · exact hlast.unspaced hwhole
  · have hlen := hlast.length_le
    rw [List.length_cons, List.length_append] at hlen
    omega

/-- The lexer takes the name of the constructor, or a parenthesis and then the name. -/
theorem lex_conText (hb : b.Plain) (hws : ∀ w ∈ ws, Whole w) {s : Str} (hs : Lexes (conText b ws d ++ s) s) :
    lex (conText b ws d ++ s) = [(getIdent b.constructor, fieldsText ws ++ s)] ∨
    ∃ u, lex (conText b ws d ++ s) = [(['('], u)] ∧
      lex u = [(getIdent b.constructor, fieldsText ws ++ ')' :: s)] := by
  unfold conText at hs ⊢
  split
  · refine .inr ⟨_, lex_open _, ?_⟩
    simpa using lex_readable_stops hb.2 (fields_stops (stops_close s) ws)
  · next hpar =>
    rw [if_neg hpar, List.append_assoc] at hs
    rw [List.append_assoc]
    cases ws with
    | nil => exact .inl (lex_name hb.2 hs)
    | cons w ws => exact .inl (lex_readable_stops hb.2 (stops_space _))

theorem readable_ne_open {name : Str} (h : isReadable name = true) : name ≠ ['('] := by
  rintro rfl
  revert h
  decide

theorem readBody_hit (hb : b.Plain) (h : Fields inst b.types vs ws) {s : Str} (hs : Lexes (conText b ws d ++ s) s) :
    readBody inst (n + 2) b d (conText b ws d ++ s) = some [(.con b.constructor vs, s)] := by
  have hopen := readable_ne_open hb.2
  by_cases hts : b.types = []
  · have hlen := h.length
    rw [hts] at h
    cases h
    have htext : conText b [] d = getIdent b.constructor := by simp [conText, hts, fieldsText]
    rw [htext] at hs ⊢
    rw [readBody_nullary hts, lex_name hb.2 hs]
    simp
  rw [readBody_fields hts]
  by_cases hd : d > 9
  · have hclose : ∀ w, ws.getLast? = some w → Lexes (w ++ ')' :: s) (')' :: s) := fun w hw =>
      (h.whole w (List.mem_of_getLast? hw)).2 _ (stops_close s)
    have hlex := lex_readable_stops hb.2 (fields_stops (stops_close s) ws)
    have htext : conText b ws d ++ s = '(' :: (getIdent b.constructor ++ (fieldsText ws ++ ')' :: s)) := by
      rw [conText, if_pos ⟨hts, by omega⟩]
      simp
    rw [htext, decide_eq_true hd, readParen, if_pos rfl,
      mandatory_open (lex_open _) (readCon_hit h hlex hclose) (mandatory_miss hlex hopen), List.append_nil, comp_single,
      lex_close]
    simp
  · have htext : conText b ws d ++ s = getIdent b.constructor ++ (fieldsText ws ++ s) := by
      rw [conText, if_neg (by omega), List.append_assoc]
    rw [htext] at hs ⊢
    have hlex : lex (getIdent b.constructor ++ (fieldsText ws ++ s)) = [(getIdent b.constructor, fieldsText ws ++ s)] := by
      cases ws with
      | nil => exact absurd (List.length_eq_zero_iff.1 h.length.symm) hts
      | cons w ws => exact lex_readable_stops hb.2 (stops_space _)
    rw [decide_eq_false hd]
    exact readParen_false (readCon_hit h hlex fun w hw => last_lexes hb.2 h.whole hs hw) (mandatory_miss hlex hopen)

/-! ### Declared types -/

variable {data : Data T}

theorem Declared.unique (hd : Declared data) {b' : Body T} (hb : b ∈ data.body) (hb' : b' ∈ data.body)
    (h : getIdent b'.constructor = getIdent b.constructor) : b' = b :=
  List.inj_on_of_nodup_map hd.distinct hb' hb h

theorem Declared.ne_open (hd : Declared data) (hb : b ∈ data.body) : ['('] ≠ getIdent b.constructor := by
  obtain ⟨c, cs, hname, hc⟩ := hd.named b hb
  rw [hname]
  intro h
  obtain ⟨rfl, -⟩ := List.cons.inj h
  revert hc
  decide

theorem find_body (hd : Declared data) (hb : b ∈ data.body) (hlen : vs.length = b.types.length) :
    data.body.find? (fun b' => decide (b'.constructor = b.constructor ∧ b'.types.length = vs.length)) = some b := by
  cases hfind : data.body.find? fun b' => decide (b'.constructor = b.constructor ∧ b'.types.length = vs.length) with
  | none =>
    have hnone := List.find?_eq_none.1 hfind b hb
    simp [hlen] at hnone
  | some b' =>
    have hsome : b'.constructor = b.constructor ∧ b'.types.length = vs.length := by
      simpa using List.find?_some hfind
    rw [hd.unique hb (List.mem_of_find?_eq_some hfind) (by rw [hsome.1])]

theorem deriveShow_con (hd : Declared data) (hb : b ∈ data.body) (hlen : vs.length = b.types.length) :
    deriveShow inst data d (.con b.constructor vs) = mkMatch inst b d (b.types.zip vs) := by
  rw [deriveShow, find_body hd hb hlen]
  rfl

theorem deriveRead_eq (inst : T → Inst (Value X)) (n : ℕ) (data : Data T) (d : ℤ) (r : Str) :
    deriveRead inst n data d r = comp data.body fun b => readBody inst n b d r := by
  unfold deriveRead
  split
  · next hbody => rw [hbody]; rfl
  · rfl

theorem deriveRead_congr {r' : Str} (hlex : lex r = lex r') : deriveRead inst n data d r = deriveRead inst n data d r' := by
  rw [deriveRead_eq, deriveRead_eq]
  exact congrArg _ (funext fun b => readBody_congr hlex)

theorem deriveRead_hit (hd : Declared data) (hmem : b ∈ data.body) (hb : b.Plain) (h : Fields inst b.types vs ws) {s : Str}
    (hs : Lexes (conText b ws d ++ s) s) :
    deriveRead inst (n + 2) data d (conText b ws d ++ s) = some [(.con b.constructor vs, s)] := by
  have hmiss : ∀ b' ∈ data.body, b' ≠ b → readBody inst (n + 2) b' d (conText b ws d ++ s) = some [] := by
    intro b' hb' hne
    have hname : getIdent b.constructor ≠ getIdent b'.constructor := fun h => hne (hd.unique hmem hb' h.symm)
    rcases lex_conText hb h.whole hs with hlex | ⟨u, hlex, hlex'⟩
    · exact readBody_miss hlex hname (readable_ne_open hb.2)
    · exact readBody_miss_open hlex hlex' hname (hd.ne_open hb') (readable_ne_open hb.2)
  have hnodup : data.body.Nodup := List.Nodup.of_map _ hd.distinct
  obtain ⟨l₁, l₂, hbody⟩ := List.append_of_mem hmem
  rw [hbody, List.nodup_middle, List.nodup_cons, List.mem_append, not_or] at hnodup
  rw [deriveRead_eq, hbody]
  refine comp_unique (readBody_hit hb h hs) (fun b' hb' => hmiss b' ?_ ?_) fun b' hb' => hmiss b' ?_ ?_
  · rw [hbody]
    exact List.mem_append_left _ hb'
  · rintro rfl
    exact hnodup.1.1 hb'
  · rw [hbody]
    exact List.mem_append_right _ (List.mem_cons_of_mem _ hb')
  · rintro rfl
    exact hnodup.1.2 hb'

section
variable {decls : T → Option (Data T)} {extTy : T → X → List T → Prop} {own : T → (T → Inst (Value X)) → Inst (Value X)}

theorem instances_con {t : T} (ht : decls t = some data) (n : ℕ) : instances decls own (n + 1) t =
    ⟨deriveShow (instances decls own n) data, deriveRead (instances decls own n) (n + 1) data⟩ := by
  rw [instances, ht]

theorem instances_ext {t : T} (ht : decls t = none) (n : ℕ) :
    instances decls own (n + 1) t = own t (instances decls own n) := by
  rw [instances, ht]

/-- One constructor: the law for the fields gives the law for the value. -/
theorem inverse_con {t : T} (ht : decls t = some data) (hd : Declared data) (hmem : b ∈ data.body) (hb : b.Plain)
    (hlen : vs.length = b.types.length)
    (hargs : ∀ p ∈ b.types.zip vs, InverseAt (instances decls own (n + 1) p.1) p.2) :
    InverseAt (instances decls own (n + 2) t) (.con b.constructor vs) := by
  obtain ⟨ws, hws⟩ := exists_fields hlen hargs
  intro d
  rw [instances_con ht]
  have hwhole : Whole (conText b ws d) := whole_conText hb hws.whole
  refine ⟨conText b ws d, ?_, hwhole, fun s hs => ?_⟩
  · exact (deriveShow_con hd hmem hlen).trans (mkMatch_plain hb hws)
  · have hread := deriveRead_hit (n := n) hd hmem hb hws (hwhole.lexes hs)
    exact ⟨hread, (deriveRead_congr (lex_space _)).trans hread⟩

theorem exists_bound {α : Type} {l : List α} {P : α → ℕ → Prop} (h : ∀ a ∈ l, ∃ N, ∀ n ≥ N, P a n) :
    ∃ N, ∀ a ∈ l, ∀ n ≥ N, P a n := by
  induction l with
  | nil => exact ⟨0, fun a ha => absurd ha List.not_mem_nil⟩
  | cons a l ih =>
    obtain ⟨N, hN⟩ := ih fun b hb => h b (List.mem_cons_of_mem _ hb)
    obtain ⟨M, hM⟩ := h a List.mem_cons_self
    refine ⟨max M N, fun b hb n hn => ?_⟩
    rcases List.mem_cons.1 hb with rfl | hb
    · exact hM n (by omega)
    · exact hN b hb n (by omega)

/-- A whole value, of any depth. -/
theorem inverse_plain (hD : ∀ t d, decls t = some d → Declared d) (hown : Lawful decls extTy own) {t : T} {v : Value X}
    (hv : Typed decls extTy Body.Plain t v) : ∃ N, ∀ n ≥ N, InverseAt (instances decls own n t) v := by
  induction hv with
  | con ht hmem hb hlen _ ih =>
    obtain ⟨N, hN⟩ := exists_bound ih
    refine ⟨N + 2, fun n hn => ?_⟩
    obtain ⟨m, rfl⟩ := Nat.exists_eq_add_of_le hn
    have hargs := fun p hp => hN p hp (N + m + 1) (by omega)
    rw [show N + 2 + m = N + m + 2 by omega]
    exact inverse_con ht (hD _ _ ht) hmem hb hlen hargs
  | ext ht hx hlen _ ih =>
    obtain ⟨N, hN⟩ := exists_bound ih
    refine ⟨N + 1, fun n hn => ?_⟩
    obtain ⟨m, rfl⟩ := Nat.exists_eq_add_of_le hn
    rw [show N + 1 + m = N + m + 1 by omega, instances_ext ht]
    exact hown _ _ _ _ _ ht hx hlen fun p hp => hN p hp (N + m) (by omega)

end

end

end Jhc.Deriving
