import Jhc.Name.Parts

/-!
# Reading complex names back

`unMkName` looks for outer names at the front of an atom, where a quotation has put a type: what is quoted and
has outer names is not read back.
-/

namespace Jhc.Name
open Jhc.Text (Str isDigit)

/-- An identifier and a module as the lexer and the renamer make them. -/
structure Lexed (p : NameParts) : Prop where
  nonempty : p.nameIdent ≠ []
  digit : ∀ c ∈ p.nameIdent.head?, isDigit c = false
  ident : ∀ c ∈ p.nameIdent, c ≠ '\x7b' ∧ c ≠ '\x7d' ∧ c ≠ ';'
  module : ∀ m ∈ p.nameModule, m ≠ [] ∧ ∀ c ∈ m, c ≠ '\x7b' ∧ c ≠ '\x7d' ∧ c ≠ ';'

/-- The names that are made of such parts, with names that are again made so as outer names. -/
inductive Produced : Name → Prop
  | mk {p n} : Lexed p → (∀ o ∈ p.nameOuter, Produced o) → mkComplexName p = some n → Produced n

variable {p : NameParts} {n o : Name} {nt : NameType} {s t : Str} {os : List Name}

@[simp] theorem decodeNameType_encodeNameType (t : NameType) : decodeNameType (encodeNameType t) = some t := by
  cases t <;> rfl

theorem encodeNameType_plain (t : NameType) : encodeNameType t ≠ '\x7b' ∧ encodeNameType t ≠ '\x7d' := by
  cases t <;> decide

/-! ### Scanning to the closing brace -/

/-- The scan goes over this text to what is behind it. -/
def Transparent (s : Str) : Prop := ∀ d rest nt acc zs,
  outerName d (s ++ rest) nt acc zs = outerName d rest nt (s.reverse ++ acc) zs

theorem Transparent.nil : Transparent [] := fun _ _ _ _ _ => rfl

theorem Transparent.append (hs : Transparent s) (ht : Transparent t) : Transparent (s ++ t) := by
  intro d rest nt acc zs
  rw [List.append_assoc, hs, ht, List.reverse_append, List.append_assoc]

theorem Transparent.cons {c : Char} (hc : c ≠ '\x7b' ∧ c ≠ '\x7d') (hs : Transparent s) : Transparent (c :: s) := by
  intro d rest nt acc zs
  rw [List.cons_append, outerName, if_neg (fun h => hc.2 h.2), if_neg hc.1, if_neg hc.2, hs, List.reverse_cons,
    List.append_assoc]
  rfl

theorem transparent_of_plain (h : ∀ c ∈ s, c ≠ '\x7b' ∧ c ≠ '\x7d') : Transparent s := by
  induction s with
  | nil => exact .nil
  | cons c s ih => exact (ih fun c' hc' => h c' (List.mem_cons_of_mem c hc')).cons (h c (List.mem_cons_self ..))

/-- Braces around a text are counted and uncounted. -/
theorem Transparent.braces (hs : Transparent s) : Transparent ('\x7b' :: s ++ ['\x7d']) := by
  intro d rest nt acc zs
  have hopen : ¬ (d = 0 ∧ '\x7b' = '\x7d') := fun h => absurd h.2 (by decide)
  have hclose : ¬ (d + 1 = 0 ∧ '\x7d' = '\x7d') := fun h => absurd h.1 (Nat.succ_ne_zero d)
  rw [List.cons_append, List.cons_append, outerName, if_neg hopen, if_pos rfl, List.append_assoc, hs,
    List.singleton_append, outerName, if_neg hclose, if_neg (by decide), if_pos rfl, Nat.add_sub_cancel]
  simp

theorem transparent_combineName (ho : Transparent o.atom) (hn : Transparent n.atom) :
    Transparent (combineName o n).atom := by
  have heq : (combineName o n).atom =
      ('\x7b' :: (encodeNameType o.nameType :: o.atom) ++ ['\x7d']) ++ n.atom := by
    simp [combineName]
  rw [heq]
  exact (Transparent.braces (ho.cons (encodeNameType_plain o.nameType))).append hn

theorem transparent_foldr (hos : ∀ o ∈ os, Transparent o.atom) (hn : Transparent n.atom) :
    Transparent (os.foldr combineName n).atom := by
  induction os with
  | nil => exact hn
  | cons o os ih =>
    exact transparent_combineName (hos o (List.mem_cons_self ..))
      (ih fun o' ho' => hos o' (List.mem_cons_of_mem o ho'))

/-- The outer names are read back, up to an atom that starts otherwise. -/
theorem outerNames_foldr (hos : ∀ o ∈ os, Transparent o.atom) (hn : n.atom.head? ≠ some '\x7b') (zs : List Name) :
    outerNames (os.foldr combineName n).atom zs = some (zs.reverse ++ os, n.atom) := by
  induction os generalizing zs with
  | nil =>
    rw [List.foldr_nil, List.append_nil]
    cases hatom : n.atom with
    | nil => rw [outerNames]; simp
    | cons c cs =>
      have hc : c ≠ '\x7b' := fun h => hn (by rw [hatom, h]; rfl)
      rw [outerNames]
      intro nt rs h
      exact hc (List.cons.inj h).1
  | cons o os ih =>
    rw [List.foldr_cons, combineName, List.cons_append, List.cons_append, outerNames,
      decodeNameType_encodeNameType, Option.bind_some, hos o (List.mem_cons_self ..), outerName,
      if_pos ⟨rfl, rfl⟩, ih fun o' ho' => hos o' (List.mem_cons_of_mem o ho')]
    simp

theorem foldr_nameType : (os.foldr combineName n).nameType = n.nameType := by
  induction os with
  | nil => rfl
  | cons o os ih => exact ih

/-! ### The innermost name -/

theorem mkNameType_cases {l : TyLevel} {b : Bool} (h : mkNameType l b = some nt) :
    (l = termLevel ∧ nt = if b then .dataConstructor else .val) ∨
      (l = typeLevel ∧ nt = if b then .typeConstructor else .typeVal) ∨
      (l = kindLevel ∧ b = true ∧ nt = .sortName) := by
  rw [mkNameType] at h
  by_cases h0 : l = termLevel
  · rw [if_pos h0] at h
    exact .inl ⟨h0, (Option.some.inj h).symm⟩
  · rw [if_neg h0] at h
    by_cases h1 : l = typeLevel
    · rw [if_pos h1] at h
      exact .inr (.inl ⟨h1, (Option.some.inj h).symm⟩)
    · rw [if_neg h1] at h
      by_cases h2 : l = kindLevel ∧ b = true
      · rw [if_pos h2] at h
        exact .inr (.inr ⟨h2.1, h2.2, (Option.some.inj h).symm⟩)
      · rw [if_neg h2] at h
        cases h

theorem exists_mkNameType {l : TyLevel} {b : Bool} (h : l = termLevel ∨ l = typeLevel ∨ l = kindLevel ∧ b = true) :
    ∃ nt, mkNameType l b = some nt := by
  rw [mkNameType]
  split_ifs
  all_goals first | exact ⟨_, rfl⟩ | exact absurd h (by tauto)

theorem mkNameType_ne_quoted {l : TyLevel} {b : Bool} (h : mkNameType l b = some nt) : nt ≠ .quotedName := by
  obtain ⟨-, rfl⟩ | ⟨-, rfl⟩ | ⟨-, -, rfl⟩ := mkNameType_cases h
  · cases b <;> decide
  · cases b <;> decide
  · decide

theorem span_append {q : Char → Bool} {c : Char} (hs : ∀ x ∈ s, q x = true) (hc : q c = false) :
    (s ++ c :: t).span q = (s, c :: t) := by
  rw [List.span_eq_takeWhile_dropWhile, List.takeWhile_append_of_pos hs, List.dropWhile_append_of_pos hs,
    List.takeWhile_cons_of_neg (by simp [hc]), List.dropWhile_cons_of_neg (by simp [hc]), List.append_nil]

theorem nameParts_forgeName {mm : Option Module} (hm : ∀ m ∈ mm, m ≠ [] ∧ ∀ c ∈ m, c ≠ ';') (i : Str) :
    nameParts (forgeName nt mm i) = some (nt, mm, i) := by
  cases mm with
  | none => rfl
  | some m =>
    obtain ⟨hne, hsemi⟩ := hm m rfl
    have hspan : (m ++ ';' :: i).span (fun x => decide (x ≠ ';')) = (m, ';' :: i) :=
      span_append (fun x hx => decide_eq_true (hsemi x hx)) (by decide)
    cases m with
    | nil => exact absurd rfl hne
    | cons c cs =>
      have hc : c ≠ ';' := hsemi c (List.mem_cons_self ..)
      rw [nameParts, forgeName]
      simp only [List.cons_append] at hspan ⊢
      split
      · exact absurd (List.cons.inj ‹_›).1 hc
      · rw [hspan]

theorem ident_ne_nil (h : Lexed p) : p.ident ≠ [] := by
  rw [NameParts.ident]
  cases p.nameUniquifier with
  | none => exact h.nonempty
  | some c => simp

theorem unRenameString_plain (h : Lexed p) (hu : p.nameUniquifier = none) :
    unRenameString p.ident = (none, p.nameIdent) := by
  rw [NameParts.ident, hu]
  show unRenameString p.nameIdent = _
  cases hi : p.nameIdent with
  | nil => exact absurd hi h.nonempty
  | cons c cs =>
    have hc : isDigit c = false := h.digit c (by rw [hi]; rfl)
    have hspan : (c :: cs).span isDigit = ([], c :: cs) := span_append (s := []) (by simp) hc
    rw [unRenameString, hspan]

theorem isDigit_eq (c : Char) : isDigit c = c.isDigit := by
  simp only [isDigit, Char.isDigit, Char.le_def, Bool.decide_and, ge_iff_le]

theorem unRenameString_uniquifier {k : ℕ} (hu : p.nameUniquifier = some k) :
    unRenameString p.ident = (some (k : ℤ), p.nameIdent) := by
  have hdigits : ∀ c ∈ Nat.toDigits 10 k, isDigit c = true := fun c hc =>
    (isDigit_eq c).trans (Nat.isDigit_of_mem_toDigits (by decide) (by decide) hc)
  have hspan : (Nat.toDigits 10 k ++ '_' :: p.nameIdent).span isDigit = (Nat.toDigits 10 k, '_' :: p.nameIdent) :=
    span_append hdigits (by decide)
  have hread : Nat.ofDigitChars 10 (Nat.toDigits 10 k) 0 = k := Nat.ofDigitChars_toDigits (by decide) (by decide)
  rw [NameParts.ident, hu]
  show unRenameString (Nat.toDigits 10 k ++ '_' :: p.nameIdent) = _
  rw [unRenameString, hspan]
  cases hd : Nat.toDigits 10 k with
  | nil => exact absurd hd Nat.toDigits_ne_nil
  | cons d ds =>
    rw [hd] at hread
    simp only [hread]

/-- A negative uniquifier is read as a part of the identifier. -/
theorem unRenameString_negative {k : ℕ} (hu : p.nameUniquifier = some (.negSucc k)) :
    unRenameString p.ident = (none, p.ident) := by
  rw [NameParts.ident, hu]
  have hspan : ('-' :: (Nat.toDigits 10 (k + 1) ++ '_' :: p.nameIdent)).span isDigit =
      ([], '-' :: (Nat.toDigits 10 (k + 1) ++ '_' :: p.nameIdent)) :=
    span_append (s := []) (by simp) (by decide)
  show unRenameString ('-' :: (Nat.toDigits 10 (k + 1) ++ '_' :: p.nameIdent)) = (none, _)
  rw [unRenameString, hspan]
  rfl

/-- The name without its outer names and its quotation. -/
def NameParts.base (p : NameParts) (nt : NameType) : Name := forgeName nt p.nameModule p.ident

theorem toName_eq (h : Lexed p) (nt : NameType) : toName nt p.nameModule p.ident = some (p.base nt) := by
  rw [NameParts.base]
  cases hm : p.nameModule with
  | none => rw [toName, createUName, if_neg (ident_ne_nil h)]
  | some m => rw [toName, createName, if_neg (h.module m hm).1, if_neg (ident_ne_nil h)]

theorem base_head (h : Lexed p) : (p.base nt).atom.head? ≠ some '\x7b' := by
  rw [NameParts.base]
  cases hm : p.nameModule with
  | none => exact fun heq => absurd (Option.some.inj heq) (by decide)
  | some m =>
    obtain ⟨hne, hplain⟩ := h.module m hm
    cases m with
    | nil => exact absurd rfl hne
    | cons c cs => exact fun heq => (hplain c (List.mem_cons_self ..)).1 (Option.some.inj heq)

theorem ident_plain (h : Lexed p) : ∀ c ∈ p.ident, c ≠ '\x7b' ∧ c ≠ '\x7d' := by
  have hident : ∀ c ∈ p.nameIdent, c ≠ '\x7b' ∧ c ≠ '\x7d' := fun c hc => ⟨(h.ident c hc).1, (h.ident c hc).2.1⟩
  have hdigit (k : ℕ) : ∀ c ∈ Nat.toDigits 10 k, c ≠ '\x7b' ∧ c ≠ '\x7d' := by
    intro c hc
    have hd := Nat.isDigit_of_mem_toDigits (by decide) (by decide) hc
    exact ⟨fun heq => by simp [heq] at hd, fun heq => by simp [heq] at hd⟩
  rw [NameParts.ident]
  cases p.nameUniquifier with
  | none => exact hident
  | some k =>
    intro c hc
    rcases List.mem_append.mp hc with hc | hc
    · cases k with
      | ofNat k => exact hdigit k c hc
      | negSucc k =>
        rcases List.mem_cons.mp hc with rfl | hc
        · decide
        · exact hdigit (k + 1) c hc
    · rcases List.mem_cons.mp hc with rfl | hc
      · decide
      · exact hident c hc

theorem transparent_base (h : Lexed p) : Transparent (p.base nt).atom := by
  have hident : Transparent (';' :: p.ident) := .cons (by decide) (transparent_of_plain (ident_plain h))
  rw [NameParts.base]
  cases hm : p.nameModule with
  | none => exact hident
  | some m =>
    refine Transparent.append (transparent_of_plain fun c hc => ?_) hident
    exact ⟨((h.module m hm).2 c hc).1, ((h.module m hm).2 c hc).2.1⟩

theorem deconstructName_base (h : Lexed p) (hnt : nt ≠ .quotedName) {u : Option ℤ} {i : Str}
    (hu : unRenameString p.ident = (u, i)) (hi : i ≠ []) :
    deconstructName (p.base nt).atom nt = some (false, p.nameModule, i, u) := by
  have hparts : nameParts ⟨(p.base nt).atom, nt⟩ = some (nt, p.nameModule, p.ident) := by
    have heq : (⟨(p.base nt).atom, nt⟩ : Name) = forgeName nt p.nameModule p.ident := by
      rw [NameParts.base]
      cases p.nameModule <;> rfl
    rw [heq]
    exact nameParts_forgeName (fun m hm => ⟨(h.module m hm).1, fun c hc => ((h.module m hm).2 c hc).2.2⟩) _
  rw [deconstructName.eq_3 _ _ (fun c rest _ => hnt) (fun _ => hnt), hparts]
  simp only [Option.bind_eq_bind, Option.bind_some, hu, toName, createUName, if_neg hi]
  rfl

/-! ### The parts of a name -/

theorem isConstructor_plain (a : Str) (hnt : nt ≠ .quotedName) : isConstructor a nt =
    some (decide (nt = .typeConstructor ∨ nt = .dataConstructor ∨ nt = .sortName)) := by
  cases nt <;> first | exact absurd rfl hnt | (cases a <;> rfl)

theorem isConstructor_mkNameType {l : TyLevel} {b : Bool} (h : mkNameType l b = some nt) (a : Str) :
    isConstructor a nt = some b := by
  rw [isConstructor_plain a (mkNameType_ne_quoted h)]
  obtain ⟨-, rfl⟩ | ⟨-, rfl⟩ | ⟨-, rfl, rfl⟩ := mkNameType_cases h
  · cases b <;> rfl
  · cases b <;> rfl
  · rfl

/-- The sorts of sorts are one level higher than other names of their type. -/
def IsSortOfSorts (a : Str) : Prop := a = s_HashHash.atom ∨ a = s_StarStar.atom

instance (a : Str) : Decidable (IsSortOfSorts a) := inferInstanceAs (Decidable (_ ∨ _))

theorem getTyLevel_sortName (a : Str) :
    getTyLevel a .sortName = some (if IsSortOfSorts a then kindLevel + 1 else kindLevel) := by
  have heq : getTyLevel a .sortName = some (if ⟨a, .sortName⟩ = s_HashHash ∨ ⟨a, .sortName⟩ = s_StarStar
      then kindLevel + 1 else kindLevel) := by
    cases a <;> rfl
  rw [heq]
  congr 1
  refine if_congr ?_ rfl rfl
  simp [IsSortOfSorts, s_HashHash, s_StarStar, forgeName]

theorem getTyLevel_mkNameType {l : TyLevel} {b : Bool} (h : mkNameType l b = some nt) (a : Str) : ∃ l',
    getTyLevel a nt = some l' ∧ (l' = l ↔ ¬ (l = kindLevel ∧ IsSortOfSorts a)) := by
  obtain ⟨rfl, rfl⟩ | ⟨rfl, rfl⟩ | ⟨rfl, rfl, rfl⟩ := mkNameType_cases h
  · have hlevel : getTyLevel a (if b then .dataConstructor else .val) = some termLevel := by
      cases b <;> cases a <;> rfl
    exact ⟨termLevel, hlevel, by simp [termLevel, kindLevel]⟩
  · have hlevel : getTyLevel a (if b then .typeConstructor else .typeVal) = some typeLevel := by
      cases b <;> cases a <;> rfl
    exact ⟨typeLevel, hlevel, by simp [typeLevel, kindLevel]⟩
  · refine ⟨_, getTyLevel_sortName a, ?_⟩
    by_cases ha : IsSortOfSorts a <;> simp [ha]

/-! ### Reading a name back -/

theorem splitOuter_foldr (hos : ∀ o ∈ os, Transparent o.atom) (hn : n.atom.head? ≠ some '\x7b') :
    splitOuter (os.foldr combineName n) = some (os, n) := by
  cases os with
  | nil =>
    rw [List.foldr_nil, splitOuter]
    split
    · rename_i xs hatom
      exact absurd (by rw [hatom]; rfl) hn
    · rfl
  | cons o os =>
    have houter := outerNames_foldr hos hn []
    rw [List.foldr_cons] at houter ⊢
    show (outerNames (combineName o (os.foldr combineName n)).atom []).map _ = _
    rw [houter]
    have hnt : (combineName o (os.foldr combineName n)).nameType = n.nameType := foldr_nameType
    simp [hnt]

theorem splitOuter_quoteName (n : Name) : splitOuter (quoteName n) = some ([], quoteName n) := by
  rw [splitOuter, quoteName]
  split
  · rename_i xs hatom
    exact absurd (List.cons.inj hatom).1 (encodeNameType_plain n.nameType).1
  · rfl

theorem unMkName_eq {nm inner : Name} {q b : Bool} {m : Option Module} {i : Str} {u : Option ℤ} {l : TyLevel}
    (hsplit : splitOuter nm = some (os, inner)) (hdec : deconstructName inner.atom inner.nameType = some (q, m, i, u))
    (hb : isConstructor nm.atom nm.nameType = some b) (hl : getTyLevel nm.atom nm.nameType = some l) :
    unMkName nm = some ⟨l, q, b, m, os, u, i⟩ := by
  rw [unMkName, hsplit]
  simp only [Option.bind_eq_bind, Option.bind_some, hdec, hb, hl]
  rfl

theorem outer_of_unMkName {nm : Name} {p' : NameParts} {inner : Name} (hsplit : splitOuter nm = some (os, inner))
    (h : unMkName nm = some p') : p'.nameOuter = os := by
  rw [unMkName, hsplit] at h
  simp only [Option.bind_eq_bind, Option.bind_some, Option.bind_eq_some_iff] at h
  obtain ⟨_, -, _, -, _, -, h⟩ := h
  cases h
  rfl

theorem mkComplexName_eq (h : Lexed p) (hnt : mkNameType p.nameLevel p.nameConstructor = some nt) :
    mkComplexName p = some (if p.nameQuoted then quoteName (p.nameOuter.foldr combineName (p.base nt))
      else p.nameOuter.foldr combineName (p.base nt)) := by
  rw [mkComplexName, hnt]
  simp only [Option.bind_eq_bind, Option.bind_some, toName_eq h]
  rfl

theorem Produced.transparent (h : Produced n) : Transparent n.atom := by
  induction h with
  | @mk p n hp _ hn ih =>
    cases hnt : mkNameType p.nameLevel p.nameConstructor with
    | none =>
      rw [mkComplexName, hnt] at hn
      cases hn
    | some nt =>
      rw [mkComplexName_eq hp hnt] at hn
      have hbase : Transparent (p.base nt).atom := transparent_base hp
      have htrans := transparent_foldr ih hbase
      cases Option.some.inj hn
      split_ifs
      · exact htrans.cons (encodeNameType_plain _)
      · exact htrans

/-- The parts are read back as they are, and so the uniquifier can be removed. -/
def Decodes (p : NameParts) : Prop := ∃ n, mkComplexName p = some n ∧ unMkName n = some p ∧
  removeUniquifier n = mkComplexName { p with nameUniquifier := none }

/-- What the encoding can tell apart. -/
structure Plain (p : NameParts) : Prop where
  level : p.nameLevel = termLevel ∨ p.nameLevel = typeLevel ∨ p.nameLevel = kindLevel ∧ p.nameConstructor = true
  quoted : p.nameQuoted = true → p.nameOuter = []
  uniquifier : ∀ c ∈ p.nameUniquifier, 0 ≤ c
  sort : ¬ (p.nameLevel = kindLevel ∧ p.nameModule = none ∧ p.nameOuter = [] ∧ p.nameUniquifier = none ∧
    (p.nameIdent = "##".toList ∨ p.nameIdent = "**".toList))

theorem isSortOfSorts_iff (h : Lexed p) : IsSortOfSorts (p.nameOuter.foldr combineName (p.base nt)).atom ↔
    p.nameModule = none ∧ p.nameOuter = [] ∧ p.nameUniquifier = none ∧
      (p.nameIdent = "##".toList ∨ p.nameIdent = "**".toList) := by
  have hsort (s : Str) : IsSortOfSorts (';' :: s) ↔ s = "##".toList ∨ s = "**".toList :=
    or_congr (List.cons_inj_right ..) (List.cons_inj_right ..)
  have hhead {c : Char} {s : Str} (hc : c ≠ ';') : ¬ IsSortOfSorts (c :: s) := by
    rintro (heq | heq) <;> exact hc (List.cons.inj heq).1
  have hident : (p.ident = "##".toList ∨ p.ident = "**".toList) ↔
      p.nameUniquifier = none ∧ (p.nameIdent = "##".toList ∨ p.nameIdent = "**".toList) := by
    rw [NameParts.ident]
    cases p.nameUniquifier with
    | none => simp
    | some c =>
      have hmem : '_' ∈ showInt c ++ '_' :: p.nameIdent :=
        List.mem_append_right _ (List.mem_cons_self ..)
      refine ⟨fun heq => ?_, fun heq => (by cases heq.1)⟩
      rcases heq with heq | heq
      · have hmem' : '_' ∈ "##".toList := heq.subst hmem
        exact absurd hmem' (by decide)
      · have hmem' : '_' ∈ "**".toList := heq.subst hmem
        exact absurd hmem' (by decide)
  cases ho : p.nameOuter with
  | cons o os =>
    refine ⟨fun heq => absurd heq (hhead (by decide)), fun heq => (by cases heq.2.1)⟩
  | nil =>
    rw [List.foldr_nil, NameParts.base]
    cases hm : p.nameModule with
    | none =>
      rw [forgeName, hsort, hident]
      simp
    | some m =>
      obtain ⟨hne, hplain⟩ := h.module m hm
      cases m with
      | nil => exact absurd rfl hne
      | cons c cs =>
        refine ⟨fun heq => absurd heq (hhead (hplain c (List.mem_cons_self ..)).2.2), fun heq => (by cases heq.1)⟩

/-- What is read of a name that is not both quoted and compound. -/
theorem unMkName_mkComplexName (h : Lexed p) (houter : ∀ o ∈ p.nameOuter, Produced o)
    (hnt : mkNameType p.nameLevel p.nameConstructor = some nt) (hq : p.nameQuoted = true → p.nameOuter = [])
    {u : Option ℤ} {i : Str} (hu : unRenameString p.ident = (u, i)) (hi : i ≠ []) : ∃ n l',
      mkComplexName p = some n ∧
      unMkName n = some ⟨l', p.nameQuoted, p.nameConstructor, p.nameModule, p.nameOuter, u, i⟩ ∧
      (l' = p.nameLevel ↔ ¬ (p.nameLevel = kindLevel ∧
        IsSortOfSorts (p.nameOuter.foldr combineName (p.base nt)).atom)) := by
  have hntq := mkNameType_ne_quoted hnt
  obtain ⟨l', hlevel, hl'⟩ := getTyLevel_mkNameType hnt (p.nameOuter.foldr combineName (p.base nt)).atom
  have hcon := isConstructor_mkNameType hnt (p.nameOuter.foldr combineName (p.base nt)).atom
  have hbase : (p.base nt).nameType = nt := by
    rw [NameParts.base]
    cases p.nameModule <;> rfl
  have hfoldr : (p.nameOuter.foldr combineName (p.base nt)).nameType = nt := foldr_nameType.trans hbase
  have hdec := deconstructName_base h hntq hu hi
  refine ⟨_, l', mkComplexName_eq h hnt, ?_, hl'⟩
  cases hquoted : p.nameQuoted with
  | false =>
    refine unMkName_eq (splitOuter_foldr (fun o ho => (houter o ho).transparent) (base_head h)) ?_ ?_ ?_
    · rw [hbase]
      exact hdec
    · rw [if_neg (by decide), hfoldr]
      exact hcon
    · rw [if_neg (by decide), hfoldr]
      exact hlevel
  | true =>
    rw [hq hquoted] at hcon hlevel hfoldr ⊢
    rw [List.foldr_nil] at hcon hlevel hfoldr ⊢
    refine unMkName_eq (splitOuter_quoteName (p.base nt)) ?_ ?_ ?_
    · rw [quoteName, hbase, deconstructName, decodeNameType_encodeNameType, Option.bind_some, hdec]
      rfl
    · rw [if_pos rfl, quoteName, hbase, isConstructor, decodeNameType_encodeNameType, Option.bind_some, hcon]
    · rw [if_pos rfl, quoteName, hbase, getTyLevel, decodeNameType_encodeNameType, Option.bind_some, hlevel]

theorem unRenameString_ident (h : Lexed p) (hu : ∀ c ∈ p.nameUniquifier, 0 ≤ c) :
    unRenameString p.ident = (p.nameUniquifier, p.nameIdent) := by
  cases hc : p.nameUniquifier with
  | none => exact unRenameString_plain h hc
  | some c =>
    obtain ⟨k, rfl⟩ := Int.eq_ofNat_of_zero_le (hu c hc)
    exact unRenameString_uniquifier hc

theorem Plain.decodes (hp : Plain p) (h : Lexed p) (houter : ∀ o ∈ p.nameOuter, Produced o) : Decodes p := by
  obtain ⟨nt, hnt⟩ := exists_mkNameType hp.level
  obtain ⟨n, l', hn, hun, hl'⟩ := unMkName_mkComplexName h houter hnt hp.quoted
    (unRenameString_ident h hp.uniquifier) h.nonempty
  have hlevel : l' = p.nameLevel :=
    hl'.mpr fun hs => hp.sort ⟨hs.1, (isSortOfSorts_iff h).mp hs.2⟩
  rw [hlevel] at hun
  refine ⟨n, hn, hun, ?_⟩
  rw [removeUniquifier, hun]
  rfl

theorem Decodes.plain (hd : Decodes p) (h : Lexed p) (houter : ∀ o ∈ p.nameOuter, Produced o) : Plain p := by
  obtain ⟨n, hn, hun, -⟩ := hd
  cases hnt : mkNameType p.nameLevel p.nameConstructor with
  | none =>
    rw [mkComplexName, hnt] at hn
    cases hn
  | some nt =>
    have hquoted : p.nameQuoted = true → p.nameOuter = [] := by
      intro hq
      rw [mkComplexName_eq h hnt, if_pos hq] at hn
      cases Option.some.inj hn
      exact outer_of_unMkName (splitOuter_quoteName _) hun
    have huniq : ∀ c ∈ p.nameUniquifier, 0 ≤ c := by
      intro c hc
      by_contra hneg
      obtain ⟨k, rfl⟩ := Int.eq_negSucc_of_lt_zero (not_le.mp hneg)
      obtain ⟨n', l', hn', hun', -⟩ :=
        unMkName_mkComplexName h houter hnt hquoted (unRenameString_negative hc) (ident_ne_nil h)
      cases hn.symm.trans hn'
      have hnone : p.nameUniquifier = none :=
        congrArg NameParts.nameUniquifier (Option.some.inj (hun.symm.trans hun'))
      rw [hnone] at hc
      cases hc
    obtain ⟨n', l', hn', hun', hl'⟩ :=
      unMkName_mkComplexName h houter hnt hquoted (unRenameString_ident h huniq) h.nonempty
    cases hn.symm.trans hn'
    have hlevel : p.nameLevel = l' := congrArg NameParts.nameLevel (Option.some.inj (hun.symm.trans hun'))
    have hlevels := mkNameType_cases hnt
    refine ⟨by tauto, hquoted, huniq, fun hs => ?_⟩
    exact hl'.mp hlevel.symm ⟨hs.1, (isSortOfSorts_iff h).mpr hs.2⟩

theorem decodes_iff_plain (h : Lexed p) (houter : ∀ o ∈ p.nameOuter, Produced o) : Decodes p ↔ Plain p :=
  ⟨fun hd => hd.plain h houter, fun hp => hp.decodes h houter⟩

/-- The renamed variable `f` of the module `M`. -/
def renamedF : NameParts := ⟨termLevel, false, false, some ['M'], [], some 3, ['f']⟩

theorem renamedF_lexed : Lexed renamedF := by
  constructor <;> simp [renamedF, isDigit]

theorem renamedF_produced : Produced ⟨['M', ';', '3', '_', 'f'], .val⟩ :=
  .mk renamedF_lexed (by simp [renamedF]) (by decide)

/-- A name in `f`. -/
def insideF : NameParts := ⟨typeLevel, false, true, none, [⟨['M', ';', '3', '_', 'f'], .val⟩], some 4, ['x']⟩

end Jhc.Name
