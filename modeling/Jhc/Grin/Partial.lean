import Jhc.Grin.TyEnv

/-!
# Partial applications (Grin/FromE.hs:140-142, 236-258; Grin/Grin.hs:328-343)

The tags of a function that waits for arguments, and their entries in the type
environment.
-/

namespace Jhc.Grin

/-! ### makePartials (FromE.hs:236-258) -/

def keepIt (t : Ty) : Bool := decide (t ≠ .tyUnit)

def keepIts (ts : List Ty) : List Ty := ts.filter keepIt

def toTyTy (as r : List Ty) : TyTy := { tyTy with tySlots := as, tyReturn := r }

def tySusp (fn : Atom) (ts : List Ty) : Option (Atom × TyTy) :=
  (partialTag fn 0).map fun t => (t, { toTyTy (keepIts ts) [.tyNode] with tyThunk := .tySusp fn })

/-- `f` of the source: the application that waits for `n` arguments, and those that wait
for more. The parameters are in reverse. -/
def partials (fn nfn : Atom) (n : ℕ) : List Ty → Option (List (Atom × TyTy))
  | [] => some []
  | t :: ts => do
    let mfn ← partialTag fn n
    let rest ← partials fn mfn (n + 1) ts
    some ((mfn, { toTyTy (keepIts ts).reverse [.tyNode] with
      tyThunk := .tyPApp (if keepIt t then some t else none) nfn }) :: rest)

def makePartials (fn : Atom) (ts rt : List Ty) : Option (List (Atom × TyTy)) :=
  match fn.toList with
  | 'f' :: _ => do
    let s ← tySusp fn ts
    let ps ← partials fn fn 1 ts.reverse
    some ((fn, toTyTy (keepIts ts) rt) :: s :: ps)
  | _ => none

/-! ### Numbers in tags -/

section
variable {t f : Tag} {n : ℕ}

theorem readDigits_toDigits (n : ℕ) : readDigits (Nat.toDigits 10 n) = n := by
  rw [readDigits, ← Nat.ofDigitChars_eq_foldl]
  exact Nat.ofDigitChars_toDigits (by decide) (by decide)

theorem spanDigits_toDigits (n : ℕ) (cs : List Char) :
    spanDigits (Nat.toDigits 10 n ++ '_' :: cs) = (Nat.toDigits 10 n, '_' :: cs) := by
  have hdigits : ∀ c ∈ Nat.toDigits 10 n, c.isDigit = true := fun c hc =>
    Nat.isDigit_of_mem_toDigits (by decide) (by decide) hc
  have hstop : Char.isDigit '_' = false := by decide
  rw [spanDigits, List.span_eq_takeWhile_dropWhile, List.takeWhile_append_of_pos hdigits,
    List.dropWhile_append_of_pos hdigits, List.takeWhile_cons_of_neg (by simp [hstop]),
    List.dropWhile_cons_of_neg (by simp [hstop]), List.append_nil]

/-- A node that waits for arguments is of a function, not of a primitive. -/
theorem toList_of_tagUnfunction (h : tagUnfunction t = some (n + 1, f)) : ∃ cs, f.toList = 'f' :: cs := by
  unfold tagUnfunction at h
  split_ifs at h with hsusp hfun
  · obtain ⟨g, -, hg⟩ := Option.map_eq_some_iff.1 h
    cases hg
  · cases h
  · split at h
    · split at h
      · next m rs hspan =>
        split_ifs at h
        simp only [Option.some.injEq, Prod.mk.injEq] at h
        exact ⟨rs, by rw [← h.2, String.toList_ofList]⟩
      · cases h
    · cases h

theorem partialTag_succ {cs : List Char} (hf : f.toList = 'f' :: cs) :
    partialTag f (n + 1) = some (String.ofList ('P' :: Nat.toDigits 10 (n + 1) ++ '_' :: cs)) := by
  have hdigits : (toString (n + 1)).toList = Nat.toDigits 10 (n + 1) := Nat.toList_repr
  simp [partialTag, hf, hdigits]

/-- What the name of a partial application says is read back from it. -/
theorem tagUnfunction_partialTag {cs : List Char} (hf : f.toList = 'f' :: cs) (h : partialTag f (n + 1) = some t) :
    tagUnfunction t = some (n + 1, f) := by
  rw [partialTag_succ hf] at h
  have ht : t.toList = 'P' :: (Nat.toDigits 10 (n + 1) ++ '_' :: cs) := by
    rw [← Option.some.inj h, String.toList_ofList]
    rfl
  have hname : String.ofList ('f' :: cs) = f := by rw [← hf, String.ofList_toList]
  simp [tagUnfunction, tagIsSuspFunction, tagIsFunction, ht, spanDigits_toDigits, Nat.toDigits_ne_nil,
    readDigits_toDigits, hname]

end

/-! ### Entries of the type environment -/

/-- The argument that is kept for a parameter. -/
def keptType (t : Ty) : Option Ty := if keepIt t then some t else none

theorem keptType_ne (t : Ty) : keptType t ≠ some .tyUnit := by
  unfold keptType keepIt
  by_cases h : t = .tyUnit
  · simp [h]
  · simp [h]

theorem keepIts_cons (t : Ty) (ts : List Ty) : keepIts (t :: ts) = (keptType t).toList ++ keepIts ts := by
  unfold keepIts keptType
  rw [List.filter_cons]
  split <;> rfl

theorem keepIts_append (ss ts : List Ty) : keepIts (ss ++ ts) = keepIts ss ++ keepIts ts := List.filter_append ss ts

theorem keepIts_reverse (ts : List Ty) : keepIts ts.reverse = (keepIts ts).reverse := List.filter_reverse

theorem keepIts_snoc (t : Ty) (ts : List Ty) : (keepIts (t :: ts)).reverse = (keepIts ts).reverse ++ (keptType t).toList := by
  rw [keepIts_cons, List.reverse_append]
  cases keptType t <;> rfl

section
variable {fn nfn : Atom} {n : ℕ} {ps : List (Atom × TyTy)} {te : TyEnv} {t f : Tag}

/-- The entry for the parameter `t`, before which come those of `us`. -/
theorem partials_mem {us vs : List Ty} {t : Ty} (h : partials fn nfn n (us ++ t :: vs) = some ps) :
    ∃ mfn w, partialTag fn (n + us.length) = some mfn ∧ (us = [] → w = nfn) ∧
      (∀ us' t', us = us' ++ [t'] → partialTag fn (n + us'.length) = some w) ∧
      (mfn, { toTyTy (keepIts vs).reverse [.tyNode] with tyThunk := .tyPApp (keptType t) w }) ∈ ps := by
  induction us generalizing nfn n ps with
  | nil =>
    simp only [List.nil_append, partials, Option.bind_eq_bind, Option.bind_eq_some_iff, Option.some.injEq] at h
    obtain ⟨mfn, hmfn, rest, -, rfl⟩ := h
    exact ⟨mfn, nfn, hmfn, fun _ => rfl, fun us' t' heq => by simp at heq, List.mem_cons_self⟩
  | cons u us ih =>
    simp only [List.cons_append, partials, Option.bind_eq_bind, Option.bind_eq_some_iff, Option.some.injEq] at h
    obtain ⟨mfn, hmfn, rest, hrest, rfl⟩ := h
    obtain ⟨m, w, hm, hnil, hcons, hmem⟩ := ih hrest
    refine ⟨m, w, ?_, fun heq => by simp at heq, fun us' t' heq => ?_, List.mem_cons_of_mem _ hmem⟩
    · rw [← hm, List.length_cons]
      congr 1
      omega
    · cases us' with
      | nil =>
        have hus : us = [] := by simpa using (List.cons.inj heq).2
        rw [hnil hus]
        exact hmfn
      | cons v us' =>
        have hus := (List.cons.inj heq).2
        rw [← hcons us' t' hus, List.length_cons]
        congr 1
        omega

/-- The type environment knows the partial applications of `f`, of which `t` waits for
`n + 1` arguments. -/
def HasPartials (te : TyEnv) (t : Tag) (n : ℕ) (f : Tag) : Prop :=
  partialTag f (n + 1) = some t ∧ ∃ ts rt ps, n + 1 ≤ ts.length ∧ makePartials f ts rt = some ps ∧
    ∀ x ∈ ps, findTyTy te x.1 = some x.2

theorem hasPartials_pred {t' : Tag} (h : HasPartials te t (n + 1) f) (ht' : partialTag f (n + 1) = some t') :
    HasPartials te t' n f := by
  obtain ⟨-, ts, rt, ps, hlen, hps, hte⟩ := h
  exact ⟨ht', ts, rt, ps, by omega, hps, hte⟩

/-- What a partial application takes and what results, and its fields with the argument are
the fields of what results. -/
theorem hasPartials_spec (h : HasPartials te t n f) :
    ∃ tyty mt w r, findTyTy te t = some tyty ∧ tyty.tyThunk = .tyPApp mt w ∧ findTyTy te w = some r ∧
      mt ≠ some .tyUnit ∧ r.tySlots = tyty.tySlots ++ mt.toList ∧ (n = 0 → w = f) ∧
      ∀ m, n = m + 1 → partialTag f (m + 1) = some w ∧ r.tyReturn = [.tyNode] := by
  obtain ⟨ht, ts, rt, ps, hlen, hps, hte⟩ := h
  unfold makePartials at hps
  split at hps
  swap
  · cases hps
  simp only [Option.bind_eq_bind, Option.bind_eq_some_iff, Option.some.injEq] at hps
  obtain ⟨s, -, qs, hqs, rfl⟩ := hps
  have hn : n < ts.reverse.length := by
    rw [List.length_reverse]
    omega
  have hsplit : ts.reverse = ts.reverse.take n ++ ts.reverse[n] :: ts.reverse.drop (n + 1) := by
    rw [← List.drop_eq_getElem_cons hn, List.take_append_drop]
  generalize hus : ts.reverse.take n = us at hsplit
  generalize ts.reverse[n] = u at hsplit
  generalize ts.reverse.drop (n + 1) = vs at hsplit
  have hlus : us.length = n := by
    rw [← hus, List.length_take]
    omega
  rw [hsplit] at hqs
  obtain ⟨mfn, w, hmfn, hnil, hcons, hmem⟩ := partials_mem hqs
  have hmt : mfn = t := by
    rw [hlus, Nat.add_comm, ht] at hmfn
    exact (Option.some.inj hmfn).symm
  subst hmt
  have hentry := hte _ (List.mem_cons_of_mem _ (List.mem_cons_of_mem _ hmem))
  cases n with
  | zero =>
    have hnil' : us = [] := List.length_eq_zero_iff.1 hlus
    subst hnil'
    have hfn := hte _ List.mem_cons_self
    refine ⟨_, keptType u, f, _, hentry, by rw [hnil rfl], hfn, keptType_ne u, ?_, fun _ => rfl,
      fun m hm => by omega⟩
    have hts : ts = (u :: vs).reverse := by rw [← List.reverse_reverse ts, hsplit, List.nil_append]
    simp only [toTyTy]
    rw [hts, keepIts_reverse, keepIts_snoc]
  | succ m =>
    rcases List.eq_nil_or_concat us with hnil' | ⟨us', u', hus'⟩
    · rw [hnil'] at hlus
      cases hlus
    · rw [List.concat_eq_append] at hus'
      have hlus' : us'.length = m := by
        rw [hus', List.length_append, List.length_singleton] at hlus
        omega
      have hw : partialTag f (m + 1) = some w := by
        rw [← hcons us' u' hus', hlus', Nat.add_comm]
      rw [hus', List.append_assoc, List.singleton_append] at hqs
      obtain ⟨mfn', w', hmfn', -, -, hmem'⟩ := partials_mem hqs
      have hmw : mfn' = w := by
        rw [hlus', Nat.add_comm, hw] at hmfn'
        exact (Option.some.inj hmfn').symm
      subst hmw
      have hentry' := hte _ (List.mem_cons_of_mem _ (List.mem_cons_of_mem _ hmem'))
      refine ⟨_, keptType u, mfn', _, hentry, rfl, hentry', keptType_ne u, keepIts_snoc u vs, fun h => by omega, fun k hk => ?_⟩
      have hkm : k = m := by omega
      subst hkm
      exact ⟨hw, rfl⟩

end

end Jhc.Grin
