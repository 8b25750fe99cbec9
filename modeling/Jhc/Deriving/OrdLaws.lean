import Jhc.Deriving.Ord

/-!
# Derived comparisons are the report's

`==` and `compare` of a derived instance as functions of two values, from what
they do at two constructors to the laws.
-/

namespace Jhc.Deriving

variable {T X : Type} {d : Data T} {I : Compares X}

/-- Undefined, or a constructor with as many fields as it is declared with. -/
def IsValue (d : Data T) (v : V X) : Prop :=
  v = .bot ∨ ∃ b ∈ d.body, ∃ xs, v = .con b.constructor xs ∧ xs.length = b.types.length

/-- What the two methods are at each pair of values; the fields are compared from left to right
as far as the first that decides. -/
structure Compared (d : Data T) (I : Compares X) (eq cmp : V X → V X → V X) : Prop where
  undefined : ∀ v w, IsValue d v → IsValue d w → v = .bot ∨ w = .bot → eq v w = .bot ∧ cmp v w = .bot
  same : ∀ b ∈ d.body, ∀ xs ys, xs.length = b.types.length → ys.length = b.types.length →
    eq (.con b.constructor xs) (.con b.constructor ys) = V.bool (equalFields I xs ys) ∧
      cmp (.con b.constructor xs) (.con b.constructor ys) = V.ordering (compareFields I xs ys)
  differ : ∀ (i j : ℕ) (b b' : Body T) (xs ys : List (V X)), d.body[i]? = some b → d.body[j]? = some b' → i ≠ j →
    xs.length = b.types.length → ys.length = b'.types.length →
    eq (.con b.constructor xs) (.con b'.constructor ys) = V.bool (some false) ∧
      cmp (.con b.constructor xs) (.con b'.constructor ys) = V.ordering (some (compare i j))

section Methods

variable (hd : (d.body.map Body.constructor).Nodup)
include hd

theorem body_eq {b b' : Body T} (hb : b ∈ d.body) (hb' : b' ∈ d.body)
    (h : b.constructor = b'.constructor) : b = b' :=
  List.inj_on_of_nodup_map hd hb hb' h

theorem index_eq {i j : ℕ} {b b' : Body T} (hi : d.body[i]? = some b) (hj : d.body[j]? = some b')
    (h : b.constructor = b'.constructor) : i = j := by
  have hli := (List.getElem?_eq_some_iff.1 hi).1
  refine (List.getElem?_inj (l := d.body.map Body.constructor) (by simpa using hli) hd).1 ?_
  rw [List.getElem?_map, List.getElem?_map, hi, hj]
  exact congrArg some h

/-- The number of fields is that of any entry for the constructor. -/
theorem length_of_entry {b : Body T} (hb : b ∈ d.body) {xs : List (V X)}
    (hxs : xs.length = b.types.length) {b' : Body T} (hb' : b' ∈ d.body)
    (h : b'.constructor = b.constructor) : xs.length = b'.types.length := by
  rw [body_eq hd hb' hb h]
  exact hxs

end Methods

theorem mem_eqEntries {t : Body T × Body T × (List (V X) → List (V X) → V X)}
    (h : t ∈ eqEntries I d) :
    t.1 ∈ d.body ∧ t.2.1 = t.1 ∧ t.2.2 = fun xs ys => V.bool (equalFields I xs ys) := by
  obtain ⟨b, hb, rfl⟩ := List.mem_map.1 h
  exact ⟨hb, rfl, rfl⟩

theorem mem_pairs {i j : ℕ} {b b' : Body T} :
    ((b, i), (b', j)) ∈ pairs d ↔ d.body[i]? = some b ∧ d.body[j]? = some b' := by
  simp [pairs, List.mk_mem_zipIdx_iff_getElem?]

theorem mem_ordEntries {t : Body T × Body T × (List (V X) → List (V X) → V X)}
    (h : t ∈ ordEntries I d) :
    ∃ i j : ℕ, d.body[i]? = some t.1 ∧ d.body[j]? = some t.2.1 ∧ t.2.2 = fun xs ys =>
      V.ordering (if i = j then compareFields I xs ys else some (compare i j)) := by
  obtain ⟨⟨⟨b, i⟩, ⟨b', j⟩⟩, hmem, rfl⟩ := List.mem_map.1 h
  obtain ⟨hi, hj⟩ := mem_pairs.1 hmem
  exact ⟨i, j, hi, hj, rfl⟩

/-- The entry for two constructors of the declaration. -/
theorem ordEntry_mem {i j : ℕ} {b b' : Body T} (hi : d.body[i]? = some b)
    (hj : d.body[j]? = some b') :
    ∃ t ∈ ordEntries I d, t.1.constructor = b.constructor ∧ t.2.1.constructor = b'.constructor :=
  ⟨_, List.mem_map.2 ⟨((b, i), (b', j)), mem_pairs.2 ⟨hi, hj⟩, rfl⟩, rfl, rfl⟩

theorem eq_undefined (hd : (d.body.map Body.constructor).Nodup) (u : ℕ) {v w : V X}
    (hv : IsValue d v) (hw : IsValue d w) (hbot : v = .bot ∨ w = .bot) :
    call I (deriveEq d u).1 [v, w] = .bot := by
  obtain ⟨ms, hms, hclauses⟩ := eq_clauses (I := I) d u
  rw [hms]
  rcases hv with rfl | ⟨b, hb, xs, rfl, hxs⟩
  · by_cases hbody : d.body = []
    · have hnil : ms = [] := by
        unfold Clauses eqEntries at hclauses
        rw [hbody] at hclauses
        cases hclauses
        rfl
      rw [hnil, hbody]
      rfl
    · exact call_bot_left hclauses (by simpa [eqEntries] using hbody) w
  · rcases hbot with hbot | rfl
    · cases hbot
    · refine call_bot_right hclauses (fun t ht h => ?_)
        ⟨_, List.mem_map.2 ⟨b, hb, rfl⟩, rfl⟩
      exact length_of_entry hd hb hxs (mem_eqEntries ht).1 h

theorem ord_undefined (hd : (d.body.map Body.constructor).Nodup) (u : ℕ) {v w : V X}
    (hv : IsValue d v) (hw : IsValue d w) (hbot : v = .bot ∨ w = .bot) :
    call I (deriveOrd d u).1 [v, w] = .bot := by
  have hclauses := ord_clauses (I := I) d u
  rw [← List.append_nil (deriveOrd d u).1]
  rcases hv with rfl | ⟨b, hb, xs, rfl, hxs⟩
  · by_cases hentries : ordEntries I d = []
    · rw [hentries] at hclauses
      rw [List.forall₂_nil_left_iff.1 hclauses]
      rfl
    · exact call_bot_left hclauses hentries w
  · rcases hbot with hbot | rfl
    · cases hbot
    · obtain ⟨i, hi⟩ := List.mem_iff_getElem?.1 hb
      refine call_bot_right hclauses (fun t ht h => ?_) ?_
      · obtain ⟨i', j', hi', -, -⟩ := mem_ordEntries ht
        exact length_of_entry hd hb hxs (List.mem_of_getElem? hi') h
      · obtain ⟨t, ht, hc, -⟩ := ordEntry_mem (I := I) hi hi
        exact ⟨t, ht, hc⟩

theorem eq_same (hd : (d.body.map Body.constructor).Nodup) (u : ℕ) {b : Body T} (hb : b ∈ d.body)
    {xs ys : List (V X)} (hxs : xs.length = b.types.length) (hys : ys.length = b.types.length) :
    call I (deriveEq d u).1 [.con b.constructor xs, .con b.constructor ys] =
      V.bool (equalFields I xs ys) := by
  obtain ⟨ms, hms, hclauses⟩ := eq_clauses (I := I) d u
  rw [hms]
  refine call_hit hclauses (fun t ht h => ?_) (fun t ht h => ?_)
    ⟨_, List.mem_map.2 ⟨b, hb, rfl⟩, rfl, rfl⟩ fun t ht _ => by rw [(mem_eqEntries ht).2.2]
  · exact length_of_entry hd hb hxs (mem_eqEntries ht).1 h
  · rw [(mem_eqEntries ht).2.1] at h ⊢
    exact length_of_entry hd hb hys (mem_eqEntries ht).1 h

theorem eq_differ (hd : (d.body.map Body.constructor).Nodup) (u : ℕ) {i j : ℕ} {b b' : Body T}
    {xs ys : List (V X)} (hi : d.body[i]? = some b) (hj : d.body[j]? = some b') (hne : i ≠ j)
    (hxs : xs.length = b.types.length) :
    call I (deriveEq d u).1 [.con b.constructor xs, .con b'.constructor ys] =
      V.bool (some false) := by
  obtain ⟨ms, hms, hclauses⟩ := eq_clauses (I := I) d u
  have hli := (List.getElem?_eq_some_iff.1 hi).1
  have hlj := (List.getElem?_eq_some_iff.1 hj).1
  rw [hms, call_miss hclauses, if_neg (by omega)]
  · rfl
  · exact fun t ht h => length_of_entry hd (List.mem_of_getElem? hi) hxs (mem_eqEntries ht).1 h
  · intro t ht h
    rw [(mem_eqEntries ht).2.1] at h
    exact hne (index_eq hd hi hj (h.1.symm.trans h.2))

theorem ord_hit (hd : (d.body.map Body.constructor).Nodup) (u : ℕ) {i j : ℕ} {b b' : Body T}
    {xs ys : List (V X)} (hi : d.body[i]? = some b) (hj : d.body[j]? = some b')
    (hxs : xs.length = b.types.length) (hys : ys.length = b'.types.length) :
    call I (deriveOrd d u).1 [.con b.constructor xs, .con b'.constructor ys] =
      V.ordering (if i = j then compareFields I xs ys else some (compare i j)) := by
  rw [← List.append_nil (deriveOrd d u).1]
  refine call_hit (ord_clauses d u) (fun t ht h => ?_) (fun t ht h => ?_) (ordEntry_mem hi hj)
    fun t ht h => ?_
  · obtain ⟨i', j', hi', -, -⟩ := mem_ordEntries ht
    exact length_of_entry hd (List.mem_of_getElem? hi) hxs (List.mem_of_getElem? hi') h
  · obtain ⟨i', j', -, hj', -⟩ := mem_ordEntries ht
    exact length_of_entry hd (List.mem_of_getElem? hj) hys (List.mem_of_getElem? hj') h
  · obtain ⟨i', j', hi', hj', hval⟩ := mem_ordEntries ht
    rw [hval, index_eq hd hi' hi h.1, index_eq hd hj' hj h.2]

theorem derived_compared (hd : (d.body.map Body.constructor).Nodup) (u u' : ℕ) :
    Compared d I (fun v w => call I (deriveEq d u).1 [v, w])
      (fun v w => call I (deriveOrd d u').1 [v, w]) where
  undefined v w hv hw hbot := ⟨eq_undefined hd u hv hw hbot, ord_undefined hd u' hv hw hbot⟩
  same b hb xs ys hxs hys := by
    obtain ⟨i, hi⟩ := List.mem_iff_getElem?.1 hb
    refine ⟨eq_same hd u hb hxs hys, ?_⟩
    rw [ord_hit hd u' hi hi hxs hys, if_pos rfl]
  differ i j b b' xs ys hi hj hne hxs hys := by
    refine ⟨eq_differ hd u hi hj hne hxs, ?_⟩
    rw [ord_hit hd u' hi hj hxs hys, if_neg hne]

/-! ### Laws -/

/-- Instances that compare by a key in a linear order, as far as they are defined. -/
structure LawfulCompares {K : Type} [LinearOrder K] (I : Compares X) (key : V X → K) : Prop where
  equals_eq : ∀ x y b, I.equals x y = some b → (b = true ↔ key x = key y)
  compare_eq : ∀ x y o, I.compare x y = some o → o.Compares (key x) (key y)
  agree : ∀ x y, I.compare x y = some .eq ↔ I.equals x y = some true

/-- The position of the constructor, and then the keys of the fields. -/
def rank {K : Type} (d : Data T) (key : V X → K) : V X → ℕ ×ₗ List K
  | .con c xs => toLex ((d.body.map Body.constructor).idxOf c, xs.map key)
  | _ => toLex (0, [])

/-- The report's laws at two constructors of the declaration. -/
structure ReportLaws {K : Type} [LinearOrder K] (d : Data T) (I : Compares X) (key : V X → K)
    (eq compare : V X → V X → V X) : Prop where
  structural : ∀ v w, IsValue d v → IsValue d w → v ≠ .bot → w ≠ .bot →
    ∀ r, eq v w = V.bool (some r) → (r = true ↔ rank d key v = rank d key w)
  lexicographic : ∀ v w, IsValue d v → IsValue d w → v ≠ .bot → w ≠ .bot →
    ∀ o, compare v w = V.ordering (some o) → o.Compares (rank d key v) (rank d key w)
  agree : ∀ v w, IsValue d v → IsValue d w →
    (compare v w = V.ordering (some .eq) ↔ eq v w = V.bool (some true))
  /-- No field is lost: where the fields can be compared, so can the constructors. -/
  total : ∀ v w, IsValue d v → IsValue d w → v ≠ .bot → w ≠ .bot →
    (∀ x y, I.equals x y ≠ none) → (∀ x y, I.compare x y ≠ none) →
    (∃ r, eq v w = V.bool (some r)) ∧ ∃ o, compare v w = V.ordering (some o)

def toBool : V X → Option Bool
  | .con c [] => if c = dc_True then some true else if c = dc_False then some false else none
  | _ => none

theorem bool_injective : Function.Injective (V.bool : Option Bool → V X) := by
  refine Function.LeftInverse.injective (g := toBool) fun r => ?_
  have hne : dc_False ≠ dc_True := by decide
  cases r with
  | none => rfl
  | some r =>
    cases r with
    | true => simp only [V.bool, toBool, if_true]
    | false => simp only [V.bool, toBool, if_neg hne, if_true]

def toOrdering : V X → Option Ordering
  | .con c [] => if c = dc_LT then some .lt else if c = dc_EQ then some .eq else some .gt
  | _ => none

theorem ordering_injective : Function.Injective (V.ordering : Option Ordering → V X) := by
  refine Function.LeftInverse.injective (g := toOrdering) fun r => ?_
  have hel : dc_EQ ≠ dc_LT := by decide
  have hgl : dc_GT ≠ dc_LT := by decide
  have hge : dc_GT ≠ dc_EQ := by decide
  cases r with
  | none => rfl
  | some o =>
    cases o with
    | lt => simp only [V.ordering, toOrdering, if_true]
    | eq => simp only [V.ordering, toOrdering, if_neg hel, if_true]
    | gt => simp only [V.ordering, toOrdering, if_neg hgl, if_neg hge]

section Fields

variable {K : Type} [LinearOrder K] {key : V X → K} (hI : LawfulCompares I key)
include hI

theorem equalFields_eq {xs ys : List (V X)} (h : xs.length = ys.length) {r : Bool}
    (hr : equalFields I xs ys = some r) : r = true ↔ xs.map key = ys.map key := by
  induction xs generalizing ys with
  | nil =>
    cases ys with
    | nil =>
      cases hr
      simp
    | cons y ys => cases h
  | cons x xs ih =>
    cases ys with
    | nil => cases h
    | cons y ys =>
      change andAlso (I.equals x y) (equalFields I xs ys) = some r at hr
      rw [List.map_cons, List.map_cons, List.cons.injEq]
      cases hxy : I.equals x y with
      | none =>
        rw [hxy] at hr
        cases hr
      | some b =>
        rw [hxy] at hr
        have hkey := hI.equals_eq x y b hxy
        cases b with
        | true =>
          have hrest := ih (Nat.succ_inj.1 h) hr
          rw [hrest]
          simp only [hkey.1 rfl, true_and]
        | false =>
          cases hr
          have hne : key x ≠ key y := fun hk => Bool.false_ne_true (hkey.2 hk)
          simp [hne]

theorem compareFields_eq {xs ys : List (V X)} (h : xs.length = ys.length) {o : Ordering}
    (ho : compareFields I xs ys = some o) : o.Compares (xs.map key) (ys.map key) := by
  induction xs generalizing ys with
  | nil =>
    cases ys with
    | nil =>
      cases ho
      rfl
    | cons y ys => cases h
  | cons x xs ih =>
    cases ys with
    | nil => cases h
    | cons y ys =>
      change orElseCompare (I.compare x y) (compareFields I xs ys) = some o at ho
      rw [List.map_cons, List.map_cons]
      cases hxy : I.compare x y with
      | none =>
        rw [hxy] at ho
        cases ho
      | some r =>
        rw [hxy] at ho
        have hkey := hI.compare_eq x y r hxy
        cases r with
        | lt =>
          cases ho
          exact List.cons_lt_cons_iff.2 (.inl hkey)
        | gt =>
          cases ho
          exact List.cons_lt_cons_iff.2 (.inl hkey)
        | eq =>
          have hkey : key x = key y := hkey
          have hrest := ih (Nat.succ_inj.1 h) ho
          rw [hkey]
          cases o with
          | lt => exact List.cons_lt_cons_iff.2 (.inr ⟨rfl, hrest⟩)
          | gt => exact List.cons_lt_cons_iff.2 (.inr ⟨rfl, hrest⟩)
          | eq => exact congrArg (key y :: ·) hrest

theorem fields_agree {xs ys : List (V X)} :
    compareFields I xs ys = some .eq ↔ equalFields I xs ys = some true := by
  induction xs generalizing ys with
  | nil => simp [compareFields, equalFields]
  | cons x xs ih =>
    cases ys with
    | nil => simp [compareFields, equalFields]
    | cons y ys =>
      change orElseCompare (I.compare x y) (compareFields I xs ys) = some .eq ↔
        andAlso (I.equals x y) (equalFields I xs ys) = some true
      by_cases heq : I.compare x y = some .eq
      · rw [heq, (hI.agree x y).1 heq]
        exact ih
      · have hne := mt (hI.agree x y).2 heq
        have hleft : orElseCompare (I.compare x y) (compareFields I xs ys) ≠ some .eq := by
          rcases hc : I.compare x y with _ | _ | _ | _
          · simp [orElseCompare]
          · simp [orElseCompare]
          · exact absurd hc heq
          · simp [orElseCompare]
        have hright : andAlso (I.equals x y) (equalFields I xs ys) ≠ some true := by
          rcases hc : I.equals x y with _ | _ | _
          · simp [andAlso]
          · simp [andAlso]
          · exact absurd hc hne
        exact iff_of_false hleft hright

end Fields

theorem equalFields_total (h : ∀ x y, I.equals x y ≠ none) (xs ys : List (V X)) :
    ∃ r, equalFields I xs ys = some r := by
  induction xs generalizing ys with
  | nil => exact ⟨true, rfl⟩
  | cons x xs ih =>
    cases ys with
    | nil => exact ⟨true, rfl⟩
    | cons y ys =>
      change ∃ r, andAlso (I.equals x y) (equalFields I xs ys) = some r
      obtain ⟨b, hb⟩ := Option.ne_none_iff_exists'.1 (h x y)
      rw [hb]
      cases b with
      | true => exact ih ys
      | false => exact ⟨false, rfl⟩

theorem compareFields_total (h : ∀ x y, I.compare x y ≠ none) (xs ys : List (V X)) :
    ∃ o, compareFields I xs ys = some o := by
  induction xs generalizing ys with
  | nil => exact ⟨.eq, rfl⟩
  | cons x xs ih =>
    cases ys with
    | nil => exact ⟨.eq, rfl⟩
    | cons y ys =>
      change ∃ o, orElseCompare (I.compare x y) (compareFields I xs ys) = some o
      obtain ⟨o, ho⟩ := Option.ne_none_iff_exists'.1 (h x y)
      rw [ho]
      cases o with
      | lt => exact ⟨.lt, rfl⟩
      | eq => exact ih ys
      | gt => exact ⟨.gt, rfl⟩

/-! ### The laws of what is derived -/

theorem rank_con {K : Type} {key : V X → K} {i : ℕ} {b : Body T} {xs : List (V X)}
    (hd : (d.body.map Body.constructor).Nodup) (hi : d.body[i]? = some b) :
    rank d key (.con b.constructor xs) = toLex (i, xs.map key) := by
  obtain ⟨hlt, hget⟩ := List.getElem?_eq_some_iff.1 hi
  have hidx := hd.idxOf_getElem i (by simpa using hlt)
  rw [List.getElem_map, hget] at hidx
  simp only [rank, hidx]

theorem defined_cases {v : V X} (hv : IsValue d v) (hbot : v ≠ .bot) :
    ∃ (i : ℕ) (b : Body T) (xs : List (V X)), d.body[i]? = some b ∧ v = .con b.constructor xs ∧ xs.length = b.types.length := by
  rcases hv with rfl | ⟨b, hb, xs, rfl, hxs⟩
  · exact absurd rfl hbot
  · obtain ⟨i, hi⟩ := List.mem_iff_getElem?.1 hb
    exact ⟨i, b, xs, hi, rfl, hxs⟩

theorem report_laws {K : Type} [LinearOrder K] {key : V X → K} (hI : LawfulCompares I key)
    (hd : (d.body.map Body.constructor).Nodup) {eq compare : V X → V X → V X}
    (h : Compared d I eq compare) : ReportLaws d I key eq compare where
  structural v w hv hw hvb hwb r hr := by
    obtain ⟨i, b, xs, hi, rfl, hxs⟩ := defined_cases hv hvb
    obtain ⟨j, b', ys, hj, rfl, hys⟩ := defined_cases hw hwb
    rw [rank_con hd hi, rank_con hd hj]
    by_cases hij : i = j
    · subst hij
      obtain rfl : b = b' := Option.some.inj (hi.symm.trans hj)
      rw [(h.same b (List.mem_of_getElem? hi) xs ys hxs hys).1] at hr
      rw [equalFields_eq hI (hxs.trans hys.symm) (bool_injective hr)]
      simp
    · rw [(h.differ i j b b' xs ys hi hj hij hxs hys).1] at hr
      cases bool_injective hr
      simp [hij]
  lexicographic v w hv hw hvb hwb o ho := by
    obtain ⟨i, b, xs, hi, rfl, hxs⟩ := defined_cases hv hvb
    obtain ⟨j, b', ys, hj, rfl, hys⟩ := defined_cases hw hwb
    rw [rank_con hd hi, rank_con hd hj]
    by_cases hij : i = j
    · subst hij
      obtain rfl : b = b' := Option.some.inj (hi.symm.trans hj)
      rw [(h.same b (List.mem_of_getElem? hi) xs ys hxs hys).2] at ho
      have hcmp := compareFields_eq hI (hxs.trans hys.symm) (ordering_injective ho)
      cases o with
      | lt => exact Prod.Lex.toLex_lt_toLex.2 (.inr ⟨rfl, hcmp⟩)
      | gt => exact Prod.Lex.toLex_lt_toLex.2 (.inr ⟨rfl, hcmp⟩)
      | eq => exact congrArg (fun ks => toLex (i, ks)) hcmp
    · rw [(h.differ i j b b' xs ys hi hj hij hxs hys).2] at ho
      obtain rfl := Option.some.inj (ordering_injective ho)
      rcases lt_or_gt_of_ne hij with hlt | hgt
      · rw [compare_lt_iff_lt.2 hlt]
        exact Prod.Lex.toLex_lt_toLex.2 (.inl hlt)
      · rw [compare_gt_iff_gt.2 hgt]
        exact Prod.Lex.toLex_lt_toLex.2 (.inl hgt)
  agree v w hv hw := by
    by_cases hbot : v = .bot ∨ w = .bot
    · obtain ⟨heq, hcmp⟩ := h.undefined v w hv hw hbot
      rw [heq, hcmp]
      simp [V.bool, V.ordering]
    · obtain ⟨hvb, hwb⟩ := not_or.1 hbot
      obtain ⟨i, b, xs, hi, rfl, hxs⟩ := defined_cases hv hvb
      obtain ⟨j, b', ys, hj, rfl, hys⟩ := defined_cases hw hwb
      by_cases hij : i = j
      · subst hij
        obtain rfl : b = b' := Option.some.inj (hi.symm.trans hj)
        obtain ⟨heq, hcmp⟩ := h.same b (List.mem_of_getElem? hi) xs ys hxs hys
        rw [heq, hcmp, ordering_injective.eq_iff, bool_injective.eq_iff]
        exact fields_agree hI
      · obtain ⟨heq, hcmp⟩ := h.differ i j b b' xs ys hi hj hij hxs hys
        rw [heq, hcmp, ordering_injective.eq_iff, bool_injective.eq_iff]
        rcases lt_or_gt_of_ne hij with hlt | hgt
        · simp [compare_lt_iff_lt.2 hlt]
        · simp [compare_gt_iff_gt.2 hgt]
  total v w hv hw hvb hwb heqs hcmps := by
    obtain ⟨i, b, xs, hi, rfl, hxs⟩ := defined_cases hv hvb
    obtain ⟨j, b', ys, hj, rfl, hys⟩ := defined_cases hw hwb
    by_cases hij : i = j
    · subst hij
      obtain rfl : b = b' := Option.some.inj (hi.symm.trans hj)
      obtain ⟨heq, hcmp⟩ := h.same b (List.mem_of_getElem? hi) xs ys hxs hys
      rw [heq, hcmp]
      obtain ⟨r, hr⟩ := equalFields_total heqs xs ys
      obtain ⟨o, ho⟩ := compareFields_total hcmps xs ys
      exact ⟨⟨r, congrArg V.bool hr⟩, ⟨o, congrArg V.ordering ho⟩⟩
    · obtain ⟨heq, hcmp⟩ := h.differ i j b b' xs ys hi hj hij hxs hys
      exact ⟨⟨_, heq⟩, ⟨_, hcmp⟩⟩

/-! ### Clauses -/

mutual

def HsPat.vars : HsPat → List Name
  | .HsPVar n => [n]
  | .HsPApp _ ps => patVars ps
  | .HsPWildCard => []

def patVars : List HsPat → List Name
  | [] => []
  | p :: ps => p.vars ++ patVars ps

end

/-- A function that has a clause, each of two patterns whose variables are distinct and none of
the names that the right sides use from elsewhere. -/
def WellFormed (f : Name) (ms : List HsMatch) : Prop :=
  ms ≠ [] ∧ ∀ m ∈ ms, m.hsMatchName = f ∧ m.hsMatchPats.length = 2 ∧
    (patVars m.hsMatchPats).Nodup ∧ ∀ n ∈ patVars m.hsMatchPats, n ∉ [v_and, v_equals, v_compare]

theorem vars_app (c : Name) (ns : List Name) : (HsPat.HsPApp c (ns.map .HsPVar)).vars = ns := by
  rw [HsPat.vars]
  induction ns with
  | nil => rfl
  | cons n ns ih => rw [List.map_cons, patVars, HsPat.vars, ih, List.singleton_append]

theorem pvar_global (u : ℕ) : pvar u ∉ [v_and, v_equals, v_compare] := by
  have hmod : ∀ n ∈ [v_and, v_equals, v_compare], n.modName ≠ [] := by decide
  exact fun h => hmod _ h rfl

theorem wellFormed_clause {b b' : Body T} {u : ℕ} {ps : List HsPat}
    (hps : ps = [(mkPat b u).1.1, (mkPat b' (mkPat b u).2).1.1]) :
    ps.length = 2 ∧ (patVars ps).Nodup ∧
      ∀ n ∈ patVars ps, n ∉ [v_and, v_equals, v_compare] := by
  have hvars : patVars ps = pvars u (b.types.length + b'.types.length) := by
    rw [hps, mkPat_run, mkPat_run, patVars, patVars, patVars, vars_app, vars_app, List.append_nil]
    simp only [pvars, ← List.map_append]
    congr 1
    rw [List.range'_append_1]
  rw [hvars]
  refine ⟨by rw [hps]; rfl, pvars_nodup _ _, fun n hn => ?_⟩
  obtain ⟨k, -, rfl⟩ := List.mem_map.1 hn
  exact pvar_global k

theorem exists_of_forall₂ {α β : Type} {R : α → β → Prop} {l : List α} {l' : List β}
    (h : List.Forall₂ R l l') {b : β} (hb : b ∈ l') : ∃ a ∈ l, R a b := by
  induction h with
  | nil => cases hb
  | @cons a b' l l' hab _ ih =>
    rcases List.mem_cons.1 hb with rfl | hb
    · exact ⟨a, List.mem_cons_self, hab⟩
    · obtain ⟨a', ha', hr⟩ := ih hb
      exact ⟨a', List.mem_cons_of_mem _ ha', hr⟩

theorem deriveEq_wellFormed (h : d.body ≠ []) (u : ℕ) : WellFormed v_equals (deriveEq d u).1 := by
  have hclauses := forall₂_mapM eqMatch d.body u
  have hrun : (deriveEq d u).1 =
      (d.body.mapM eqMatch u).1 ++ if d.body.length ≤ 1 then [] else [dfalse] := rfl
  rw [hrun]
  constructor
  · intro hnil
    rw [(List.append_eq_nil_iff.1 hnil).1] at hclauses
    exact h (List.forall₂_nil_right_iff.1 hclauses)
  · intro m hm
    rcases List.mem_append.1 hm with hm | hm
    · obtain ⟨b, -, u', rfl⟩ := exists_of_forall₂ hclauses hm
      exact ⟨rfl, wellFormed_clause rfl⟩
    · split at hm
      · cases hm
      · obtain rfl := List.mem_singleton.1 hm
        refine ⟨rfl, rfl, ?_⟩
        simp [dfalse, patVars, HsPat.vars]

theorem deriveOrd_wellFormed (h : d.body ≠ []) (u : ℕ) : WellFormed v_compare (deriveOrd d u).1 := by
  have hclauses := forall₂_mapM (fun xy : (Body T × ℕ) × (Body T × ℕ) => ordMatch xy.1 xy.2)
    (pairs d) u
  have hrun : (deriveOrd d u).1 = ((pairs d).mapM (fun xy : (Body T × ℕ) × (Body T × ℕ) =>
    ordMatch xy.1 xy.2) u).1 := rfl
  rw [hrun]
  constructor
  · intro hnil
    rw [hnil] at hclauses
    have hpairs := List.forall₂_nil_right_iff.1 hclauses
    obtain ⟨b, bs, hbody⟩ := List.exists_cons_of_ne_nil h
    have hmem : ((b, 0), (b, 0)) ∈ pairs d := mem_pairs.2 (by simp [hbody])
    rw [hpairs] at hmem
    cases hmem
  · intro m hm
    obtain ⟨xy, -, u', rfl⟩ := exists_of_forall₂ hclauses hm
    exact ⟨rfl, wellFormed_clause rfl⟩

/-- The report's comparisons, for any names to begin with: exactly for declarations that have a
constructor. -/
theorem derived_comparisons_iff (d : Data T) (hd : (d.body.map Body.constructor).Nodup)
    (u u' : ℕ) :
    (WellFormed v_equals (deriveEq d u).1 ∧ WellFormed v_compare (deriveOrd d u').1 ∧
      ∀ (X : Type) (I : Compares X),
        Compared d I (fun v w => call I (deriveEq d u).1 [v, w])
          (fun v w => call I (deriveOrd d u').1 [v, w]) ∧
        ∀ (K : Type) (_ : LinearOrder K) (key : V X → K), LawfulCompares I key →
          ReportLaws d I key (fun v w => call I (deriveEq d u).1 [v, w])
            (fun v w => call I (deriveOrd d u').1 [v, w])) ↔ d.body ≠ [] := by
  constructor
  · intro h hbody
    refine h.1.1 ?_
    have hrun : (deriveEq d u).1 =
        (d.body.mapM eqMatch u).1 ++ if d.body.length ≤ 1 then [] else [dfalse] := rfl
    rw [hrun, hbody]
    rfl
  · intro h
    refine ⟨deriveEq_wellFormed h u, deriveOrd_wellFormed h u', fun X I => ?_⟩
    have hcmp := derived_compared (I := I) hd u u'
    exact ⟨hcmp, fun K _ key hI => report_laws hI hd hcmp⟩

/-- `data P = A x | B`. -/
def optional : Data Unit :=
  { body := [{ constructor := ⟨[], ['A']⟩, labels := [], types := [()] },
      { constructor := ⟨[], ['B']⟩, labels := [], types := [] }] }

theorem optional_comparisons :
    WellFormed v_equals (deriveEq optional 1).1 ∧ WellFormed v_compare (deriveOrd optional 7).1 :=
  have h := (derived_comparisons_iff optional (by decide) 1 7).2 (by decide)
  ⟨h.1, h.2.1⟩

/-- `data Void`: functions without a clause. -/
theorem void_comparisons :
    ¬ WellFormed v_equals (deriveEq ({ body := [] } : Data Unit) 1).1 ∧
      ¬ WellFormed v_compare (deriveOrd ({ body := [] } : Data Unit) 1).1 :=
  ⟨fun h => h.1 rfl, fun h => h.1 rfl⟩

end Jhc.Deriving
