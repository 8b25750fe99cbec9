import Jhc.UnionSolve.Constraints

/-!
# One call of doOp (src/Util/UnionSolve.hs:211-258)

`doOp` looks at the record of one class only. What it does is a plan: a new record
and the calls that follow, or a failure.
-/

namespace Jhc.UnionSolve
open Fixable LawfulFixable Jhc.Lib

variable {l : Type}

/-! ### The plan of a call -/

/-- A call of `doOp`. -/
structure Call (l : Type) where
  ve : ℕ
  op : Op
  c : l

/-- The calls of a plan, one after the other. -/
def calls (rec : ℕ → Op → l → UF l → Except Stop (UF l)) (ks : List (Call l)) (s : UF l) :
    Except Stop (UF l) :=
  ks.foldlM (fun s k => rec k.ve k.op k.c s) s

def runPlan (rec : ℕ → Op → l → UF l → Except Stop (UF l)) (ve : ℕ) (s : UF l) :
    Option (R l × List (Call l)) → Except Stop (UF l)
  | none => .error .fail
  | some (r, ks) => calls rec ks (s.putW ve r)

section Calls

variable (rec : ℕ → Op → l → UF l → Except Stop (UF l))

theorem calls_nil (s : UF l) : calls rec [] s = .ok s := rfl

theorem calls_append (ks ks' : List (Call l)) (s : UF l) :
    calls rec (ks ++ ks') s = calls rec ks s >>= calls rec ks' := List.foldlM_append ..

theorem calls_single (k : Call l) (s : UF l) : calls rec [k] s = rec k.ve k.op k.c s := by
  unfold calls
  rw [List.foldlM_cons]
  exact bind_pure _

theorem calls_map (op : Op) (c : l) (vs : List ℕ) (s : UF l) :
    calls rec (vs.map (⟨·, op, c⟩)) s = vs.foldlM (fun s v => rec v op c s) s :=
  List.foldlM_map ..

theorem putW_self (ve : ℕ) (s : UF l) : s.putW ve (s.getW ve) = s := by
  unfold UF.putW UF.updateW UF.getW
  rw [Function.update_eq_self]

end Calls

section Plan

variable [Fixable l]

/-- The calls of `checkBounds`. -/
def boundsPlan (xe : ℕ) (ml mu : Option l) : Option (List (Call l)) :=
  match ml, mu with
  | some lo, some u =>
    if eq lo u then some [⟨xe, .eq, lo⟩]
    else if lte u lo then none
    else if isTop lo then some [⟨xe, .eq, lo⟩]
    else if isBottom u then some [⟨xe, .eq, u⟩]
    else some []
  | some lo, none => if isTop lo then some [⟨xe, .eq, lo⟩] else some []
  | none, some u => if isBottom u then some [⟨xe, .eq, u⟩] else some []
  | none, none => some []

def plan (k : Call l) (r : R l) : Option (R l × List (Call l)) :=
  match k.op, r with
  | op, .r x => if check op x k.c then some (.r x, []) else none
  | .eq, .ri ml lb mu ub =>
    if testBoundLT ml k.c && testBoundGT mu k.c then
      some (.r k.c, lb.map (⟨·, .lte, k.c⟩) ++ ub.map (⟨·, .gte, k.c⟩))
    else none
  | .lte, .ri ml lb mu ub =>
    if mu.any fun n => lte n k.c then some (.ri ml lb mu ub, [])
    else if ml.any fun n => eq n k.c then some (.ri ml lb mu ub, [⟨k.ve, .eq, k.c⟩])
    else if ml.any fun n => lte k.c n then none
    else
      let nv := mmeet k.c mu
      (boundsPlan k.ve ml (some nv)).map fun ks => (.ri ml lb (some nv) ub,
        ks ++ if eqBound (some nv) mu then [] else lb.map (⟨·, .lte, nv⟩))
  | .gte, .ri ml lb mu ub =>
    if ml.any fun n => lte k.c n then some (.ri ml lb mu ub, [])
    else if mu.any fun n => eq n k.c then some (.ri ml lb mu ub, [⟨k.ve, .eq, k.c⟩])
    else if mu.any fun n => lte n k.c then none
    else
      let nv := mjoin k.c ml
      (boundsPlan k.ve (some nv) mu).map fun ks => (.ri (some nv) lb mu ub,
        ks ++ if eqBound (some nv) ml then [] else ub.map (⟨·, .gte, nv⟩))

variable (rec : ℕ → Op → l → UF l → Except Stop (UF l))

attribute [local grind =] plan

theorem checkBounds_eq (ml mu : Option l) (lb ub : List ℕ) (xe : ℕ) (s : UF l) :
    checkBounds rec (.ri ml lb mu ub) xe s = match boundsPlan xe ml mu with
      | none => .error .fail
      | some ks => calls rec ks s := by
  unfold checkBounds boundsPlan
  cases ml with
  | none =>
    cases mu with
    | none => rfl
    | some u =>
      dsimp only
      split_ifs <;> simp only [calls_single, calls_nil]
  | some lo =>
    cases mu with
    | none =>
      dsimp only
      split_ifs <;> simp only [calls_single, calls_nil]
    | some u =>
      dsimp only
      split_ifs <;> simp only [calls_single, calls_nil]

/-- A changed bound: the new record is checked, then its neighbours are told. -/
theorem doUpdate_eq {ml mu : Option l} {lb ub : List ℕ} (ve : ℕ) (s : UF l) (same : Bool)
    (ks : List (Call l)) :
    (do
      let s ← doUpdate rec (.ri ml lb mu ub) ve s
      if same then return s
      calls rec ks s) = runPlan rec ve s ((boundsPlan ve ml mu).map fun ks' =>
        (.ri ml lb mu ub, ks' ++ if same then [] else ks)) := by
  unfold doUpdate
  rw [checkBounds_eq]
  cases boundsPlan ve ml mu with
  | none => rfl
  | some ks' =>
    show _ = calls rec _ _
    rw [calls_append]
    cases same <;> rfl

/-- A call does what its plan says. -/
theorem doOpF_eq (k : Call l) (s : UF l) :
    doOpF rec k.ve k.op k.c s = runPlan rec k.ve s (plan k (s.getW k.ve)) := by
  have hself := putW_self k.ve s
  unfold doOpF plan
  cases hr : s.getW k.ve with
  | r x =>
    rw [hr] at hself
    dsimp only
    split_ifs
    · show Except.ok s = calls rec [] (s.putW k.ve (.r x))
      rw [hself, calls_nil]
    · rfl
  | ri ml lb mu ub =>
    rw [hr] at hself
    cases k.op with
    | eq =>
      dsimp only
      split_ifs
      · show _ = calls rec _ _
        rw [calls_append]
        simp only [← calls_map]
        rfl
      · rfl
    | lte =>
      dsimp only
      split_ifs
      · show Except.ok s = calls rec [] (s.putW k.ve (.ri ml lb mu ub))
        rw [hself, calls_nil]
      · show _ = calls rec [_] (s.putW k.ve (.ri ml lb mu ub))
        rw [hself, calls_single]
      · rfl
      · exact doUpdate_eq rec k.ve s true []
      · simp only [← calls_map]
        exact doUpdate_eq rec k.ve s false _
    | gte =>
      dsimp only
      split_ifs
      · show Except.ok s = calls rec [] (s.putW k.ve (.ri ml lb mu ub))
        rw [hself, calls_nil]
      · show _ = calls rec [_] (s.putW k.ve (.ri ml lb mu ub))
        rw [hself, calls_single]
      · rfl
      · exact doUpdate_eq rec k.ve s true []
      · simp only [← calls_map]
        exact doUpdate_eq rec k.ve s false _

end Plan

/-! ### Bounds that the constants justify -/

section Bounds

variable [Lattice l]

/-- A join of values of `A`: it is below all that is above the values of `A` below it. -/
def Low (A : Set l) (a : l) : Prop := ∀ x, (∀ c ∈ A, c ≤ a → c ≤ x) → a ≤ x

/-- A meet of values of `B`. -/
def Upp (B : Set l) (b : l) : Prop := ∀ x, (∀ c ∈ B, b ≤ c → x ≤ c) → x ≤ b

variable {A A' B B' : Set l} {a b : l}

theorem low_of_mem (ha : a ∈ A) : Low A a := fun _ h => h a ha le_rfl

theorem upp_of_mem (hb : b ∈ B) : Upp B b := fun _ h => h b hb le_rfl

theorem Low.mono (h : Low A a) (hsub : A ⊆ A') : Low A' a := fun x hx =>
  h x fun c hc => hx c (hsub hc)

theorem Upp.mono (h : Upp B b) (hsub : B ⊆ B') : Upp B' b := fun x hx =>
  h x fun c hc => hx c (hsub hc)

theorem Low.sup {a' : l} (h : Low A a) (h' : Low A a') : Low A (a ⊔ a') := fun x hx =>
  sup_le (h x fun c hc hle => hx c hc (hle.trans le_sup_left))
    (h' x fun c hc hle => hx c hc (hle.trans le_sup_right))

theorem Upp.inf {b' : l} (h : Upp B b) (h' : Upp B b') : Upp B (b ⊓ b') := fun x hx =>
  le_inf (h x fun c hc hle => hx c hc (inf_le_left.trans hle))
    (h' x fun c hc hle => hx c hc (inf_le_right.trans hle))

/-- A value that is not below another one has a constant below it that is not either. -/
theorem Low.exists_not_le (h : Low A a) {x : l} (hx : ¬a ≤ x) : ∃ c ∈ A, c ≤ a ∧ ¬c ≤ x := by
  by_contra hnone
  refine hx (h x fun c hc hca => ?_)
  by_contra hcx
  exact hnone ⟨c, hc, hca, hcx⟩

theorem Upp.exists_not_le (h : Upp B b) {x : l} (hx : ¬x ≤ b) : ∃ c ∈ B, b ≤ c ∧ ¬x ≤ c := by
  by_contra hnone
  refine hx (h x fun c hc hbc => ?_)
  by_contra hxc
  exact hnone ⟨c, hc, hbc, hxc⟩

/-- What a failing call has found. -/
def Clash (A B : Set l) : Prop :=
  (∃ n m, Low A n ∧ Upp B m ∧ ¬n ≤ m) ∧ ∃ p q, Low A p ∧ Upp B q ∧ q ≤ p

theorem Clash.crossed (h : Clash A B) : (∃ a ∈ A, ∃ b ∈ B, ¬a ≤ b) ∧
    ∀ y ∈ lowerBounds B, ∀ z ∈ upperBounds A, y ≤ z := by
  obtain ⟨⟨n, m, hn, hm, hnm⟩, p, q, hp, hq, hqp⟩ := h
  constructor
  · obtain ⟨b, hb, -, hnb⟩ := hm.exists_not_le hnm
    obtain ⟨a, ha, -, hab⟩ := hn.exists_not_le hnb
    exact ⟨a, ha, b, hb, hab⟩
  · intro y hy z hz
    have hyq : y ≤ q := hq y fun c hc _ => hy hc
    have hpz : p ≤ z := hp z fun c hc _ => hz hc
    exact hyq.trans (hqp.trans hpz)

/-- Values that are both a join of lower and a meet of upper constants are equal, or clash. -/
theorem clash_of_ne {x c : l} (hx : Low A x ∧ Upp B x) (hc : Low A c ∧ Upp B c) (hne : x ≠ c) :
    Clash A B := by
  by_cases hle : x ≤ c
  · have hnot : ¬c ≤ x := fun h => hne (le_antisymm hle h)
    exact ⟨⟨c, x, hc.1, hx.2, hnot⟩, x, x, hx.1, hx.2, le_rfl⟩
  · exact ⟨⟨x, c, hx.1, hc.2, hle⟩, x, x, hx.1, hx.2, le_rfl⟩

end Bounds

/-! ### What a plan achieves -/

def R.low : R l → Option l
  | .r c => some c
  | .ri ml _ _ _ => ml

def R.up : R l → Option l
  | .r c => some c
  | .ri _ _ mu _ => mu

def R.lb : R l → List ℕ
  | .r _ => []
  | .ri _ lb _ _ => lb

def R.ub : R l → List ℕ
  | .r _ => []
  | .ri _ _ _ ub => ub

section Planned

variable [Lattice l]

def R.Valid (A B : Set l) (r : R l) : Prop :=
  (∀ a, r.low = some a → Low A a) ∧ ∀ b, r.up = some b → Upp B b

def Call.Valid (A B : Set l) (k : Call l) : Prop :=
  (k.op ≠ .lte → Low A k.c) ∧ (k.op ≠ .gte → Upp B k.c)

/-- The call has been answered by the record. -/
def R.Meets (r : R l) : Op → l → Prop
  | .lte, c => ∃ b, r.up = some b ∧ b ≤ c
  | .gte, c => ∃ a, r.low = some a ∧ c ≤ a
  | .eq, c => r = .r c

/-- The calls to the own class and to the neighbours, as far as they matter. -/
structure Planned (A B : Set l) (k : Call l) (r r' : R l) (ks : List (Call l)) : Prop where
  valid : r'.Valid A B
  fixed : ∀ c, r = .r c → r' = r
  lists : ∀ ml lb mu ub, r' = .ri ml lb mu ub → lb = r.lb ∧ ub = r.ub
  low_le : ∀ a, r.low = some a → r'.Meets .gte a
  up_le : ∀ b, r.up = some b → r'.Meets .lte b
  meets : r'.Meets k.op k.c ∨ ⟨k.ve, .eq, k.c⟩ ∈ ks
  calls : ∀ k' ∈ ks, (k'.ve = k.ve ∧ k'.op = .eq ∧ k'.Valid A B) ∨
    (k'.op = .lte ∧ k'.ve ∈ r.lb ∧ Upp B k'.c) ∨ (k'.op = .gte ∧ k'.ve ∈ r.ub ∧ Low A k'.c)
  rise : ∀ a, r'.low = some a → r.low ≠ some a → ∀ z ∈ r.ub, ⟨z, .gte, a⟩ ∈ ks
  drop : ∀ b, r'.up = some b → r.up ≠ some b → ∀ z ∈ r.lb, ⟨z, .lte, b⟩ ∈ ks
  crossing : ∀ a lb b ub, r' = .ri (some a) lb (some b) ub → b ≤ a →
    r' = r ∨ ⟨k.ve, .eq, a⟩ ∈ ks
  smaller : r' ≠ r ∨ ks = [] ∨ (k.op ≠ .eq ∧ ks = [⟨k.ve, .eq, k.c⟩])

variable {A B : Set l} {k : Call l} {r : R l}

/-- A plan that leaves the record as it is. -/
theorem planned_same {ks : List (Call l)} (hr : r.Valid A B)
    (hks : ks = [] ∧ r.Meets k.op k.c ∨
      ks = [⟨k.ve, .eq, k.c⟩] ∧ k.op ≠ .eq ∧ Low A k.c ∧ Upp B k.c) :
    Planned A B k r r ks where
  valid := hr
  fixed _ _ := rfl
  lists ml lb mu ub h := by
    subst h
    exact ⟨rfl, rfl⟩
  low_le a ha := ⟨a, ha, le_rfl⟩
  up_le b hb := ⟨b, hb, le_rfl⟩
  meets := by
    cases hks with
    | inl h => exact Or.inl h.2
    | inr h => exact Or.inr (h.1 ▸ List.mem_cons_self)
  calls k' hk' := by
    cases hks with
    | inl h => exact absurd (h.1 ▸ hk') List.not_mem_nil
    | inr h =>
      cases List.mem_singleton.mp (h.1 ▸ hk')
      exact Or.inl ⟨rfl, rfl, fun _ => h.2.2.1, fun _ => h.2.2.2⟩
  rise a ha hne := absurd ha hne
  drop b hb hne := absurd hb hne
  crossing _ _ _ _ _ _ := Or.inl rfl
  smaller := by
    cases hks with
    | inl h => exact Or.inr (Or.inl h.1)
    | inr h => exact Or.inr (Or.inr ⟨h.2.1, h.1⟩)

variable [Fixable l] [LawfulFixable l]

theorem upp_of_top {a : l} (ha : isTop a = true) : Upp B a := fun x _ => top_ge a ha x

theorem low_of_bottom {a : l} (ha : isBottom a = true) : Low A a := fun x _ => bottom_le a ha x

theorem check_iff (op : Op) (x c : l) : check op x c = true ↔ (R.r x).Meets op c := by
  cases op with
  | lte =>
    show lte x c = true ↔ ∃ b, some x = some b ∧ b ≤ c
    rw [lte_iff]
    simp
  | eq =>
    show eq x c = true ↔ R.r x = R.r c
    rw [eq_iff]
    simp
  | gte =>
    show lte c x = true ↔ ∃ b, some x = some b ∧ c ≤ b
    rw [lte_iff]
    simp

theorem boundsPlan_spec {ml mu : Option l} (hlow : ∀ a, ml = some a → Low A a)
    (hup : ∀ b, mu = some b → Upp B b) (ve : ℕ) : match boundsPlan ve ml mu with
      | none => Clash A B
      | some ks => (∀ k' ∈ ks, k'.ve = ve ∧ k'.op = .eq ∧ k'.Valid A B) ∧
        ∀ a b, ml = some a → mu = some b → b ≤ a → ⟨ve, .eq, a⟩ ∈ ks := by
  have hcall : ∀ c, Low A c → Upp B c → ∀ k' ∈ [(⟨ve, .eq, c⟩ : Call l)],
      k'.ve = ve ∧ k'.op = .eq ∧ k'.Valid A B := by
    intro c hl hu k' hk'
    cases List.mem_singleton.mp hk'
    exact ⟨rfl, rfl, fun _ => hl, fun _ => hu⟩
  have hempty : ∀ k' ∈ ([] : List (Call l)), k'.ve = ve ∧ k'.op = .eq ∧ k'.Valid A B :=
    fun k' hk' => absurd hk' List.not_mem_nil
  unfold boundsPlan
  cases ml with
  | none =>
    cases mu with
    | none => exact ⟨hempty, fun _ _ => nofun⟩
    | some u =>
      dsimp only
      split_ifs with hbottom
      · exact ⟨hcall u (low_of_bottom hbottom) (hup u rfl), fun _ _ => nofun⟩
      · exact ⟨hempty, fun _ _ => nofun⟩
  | some lo =>
    cases mu with
    | none =>
      dsimp only
      split_ifs with htop
      · exact ⟨hcall lo (hlow lo rfl) (upp_of_top htop), fun _ _ _ => nofun⟩
      · exact ⟨hempty, fun _ _ _ => nofun⟩
    | some u =>
      have hends : ¬eq lo u = true → ¬lte u lo = true → ∀ ks : List (Call l), ∀ a b, some lo = some a →
          some u = some b → b ≤ a → ⟨ve, .eq, a⟩ ∈ ks := by
        intro _ hnot ks a b ha hb hle
        cases ha
        cases hb
        exact absurd ((lte_iff u lo).mpr hle) hnot
      dsimp only
      split_ifs with heq hle htop hbottom
      · have hsame := (eq_iff lo u).mp heq
        refine ⟨hcall lo (hlow lo rfl) (hsame ▸ hup u rfl), fun a b ha hb _ => ?_⟩
        cases ha
        exact List.mem_cons_self
      · have hcross := (lte_iff u lo).mp hle
        have hne : ¬lo ≤ u := fun h => heq ((eq_iff lo u).mpr (le_antisymm h hcross))
        exact ⟨⟨lo, u, hlow lo rfl, hup u rfl, hne⟩, lo, u, hlow lo rfl, hup u rfl, hcross⟩
      · exact ⟨hcall lo (hlow lo rfl) (upp_of_top htop), hends heq hle _⟩
      · exact ⟨hcall u (low_of_bottom hbottom) (hup u rfl), hends heq hle _⟩
      · exact ⟨hempty, hends heq hle _⟩

theorem plan_fixed {x : l} (hr : (R.r x).Valid A B) (hk : k.Valid A B) :
    match plan k (.r x) with
    | none => Clash A B
    | some (r', ks) => Planned A B k (.r x) r' ks := by
  obtain ⟨hlow, hup⟩ := hr
  have hx : Low A x ∧ Upp B x := ⟨hlow x rfl, hup x rfl⟩
  unfold plan
  dsimp only
  split_ifs with hcheck
  · exact planned_same ⟨hlow, hup⟩ (Or.inl ⟨rfl, (check_iff _ _ _).mp hcheck⟩)
  · rw [check_iff] at hcheck
    show Clash A B
    obtain ⟨ve, op, c⟩ := k
    cases op with
    | lte =>
      have hnot : ¬x ≤ c := fun h => hcheck ⟨x, rfl, h⟩
      exact ⟨⟨x, c, hx.1, hk.2 nofun, hnot⟩, x, x, hx.1, hx.2, le_rfl⟩
    | eq =>
      have hne : x ≠ c := fun h => hcheck (congrArg R.r h)
      exact clash_of_ne hx ⟨hk.1 nofun, hk.2 nofun⟩ hne
    | gte =>
      have hnot : ¬c ≤ x := fun h => hcheck ⟨x, rfl, h⟩
      exact ⟨⟨c, x, hk.1 nofun, hx.2, hnot⟩, x, x, hx.1, hx.2, le_rfl⟩

theorem plan_eq {ve : ℕ} {c : l} {ml mu : Option l} {lb ub : List ℕ}
    (hr : (R.ri ml lb mu ub).Valid A B) (hk : (⟨ve, .eq, c⟩ : Call l).Valid A B) :
    match plan ⟨ve, .eq, c⟩ (.ri ml lb mu ub) with
    | none => Clash A B
    | some (r', ks) => Planned A B ⟨ve, .eq, c⟩ (.ri ml lb mu ub) r' ks := by
  obtain ⟨hlow, hup⟩ := hr
  have hc : Low A c ∧ Upp B c := ⟨hk.1 nofun, hk.2 nofun⟩
  have hlt : testBoundLT ml c = true ↔ ∀ a, ml = some a → a ≤ c := by
    cases ml with
    | none => simp [testBoundLT]
    | some a => simp [testBoundLT, lte_iff]
  have hgt : testBoundGT mu c = true ↔ ∀ b, mu = some b → c ≤ b := by
    cases mu with
    | none => simp [testBoundGT]
    | some b => simp [testBoundGT, lte_iff]
  unfold plan
  dsimp only
  split_ifs with hbounds <;> rw [Bool.and_eq_true, hlt, hgt] at hbounds
  · refine ⟨⟨fun a ha => ?_, fun b hb => ?_⟩, nofun, nofun, fun a ha => ⟨c, rfl, hbounds.1 a ha⟩,
      fun b hb => ⟨c, rfl, hbounds.2 b hb⟩, Or.inl rfl, fun k' hk' => ?_, fun a ha _ z hz => ?_,
      fun b hb _ z hz => ?_, nofun, Or.inl nofun⟩
    · cases ha
      exact hc.1
    · cases hb
      exact hc.2
    · cases List.mem_append.mp hk' with
      | inl h =>
        obtain ⟨z, hz, rfl⟩ := List.mem_map.mp h
        exact Or.inr (Or.inl ⟨rfl, hz, hc.2⟩)
      | inr h =>
        obtain ⟨z, hz, rfl⟩ := List.mem_map.mp h
        exact Or.inr (Or.inr ⟨rfl, hz, hc.1⟩)
    · cases ha
      exact List.mem_append_right _ (List.mem_map_of_mem hz)
    · cases hb
      exact List.mem_append_left _ (List.mem_map_of_mem hz)
  · show Clash A B
    by_cases hle : ∀ a, ml = some a → a ≤ c
    · have hnot : ¬∀ b, mu = some b → c ≤ b := fun h => hbounds ⟨hle, h⟩
      push Not at hnot
      obtain ⟨b, hb, hcb⟩ := hnot
      exact ⟨⟨c, b, hc.1, hup b hb, hcb⟩, c, c, hc.1, hc.2, le_rfl⟩
    · push Not at hle
      obtain ⟨a, ha, hac⟩ := hle
      exact ⟨⟨a, c, hlow a ha, hc.2, hac⟩, c, c, hc.1, hc.2, le_rfl⟩

theorem mmeet_spec {c : l} {mu : Option l} (hc : Upp B c) (hup : ∀ b, mu = some b → Upp B b)
    (hnot : ¬∃ b, mu = some b ∧ b ≤ c) : Upp B (mmeet c mu) ∧ mmeet c mu ≤ c ∧
      (∀ b, mu = some b → mmeet c mu ≤ b) ∧ mu ≠ some (mmeet c mu) := by
  cases mu with
  | none => exact ⟨hc, le_rfl, nofun, nofun⟩
  | some b =>
    have heq : mmeet c (some b) = c ⊓ b := meet_eq c b
    rw [heq]
    refine ⟨hc.inf (hup b rfl), inf_le_left, fun b' hb' => ?_, fun h => hnot ⟨b, rfl, ?_⟩⟩
    · cases hb'
      exact inf_le_right
    · exact right_eq_inf.mp (Option.some.inj h)

theorem mjoin_spec {c : l} {ml : Option l} (hc : Low A c) (hlow : ∀ a, ml = some a → Low A a)
    (hnot : ¬∃ a, ml = some a ∧ c ≤ a) : Low A (mjoin c ml) ∧ c ≤ mjoin c ml ∧
      (∀ a, ml = some a → a ≤ mjoin c ml) ∧ ml ≠ some (mjoin c ml) := by
  cases ml with
  | none => exact ⟨hc, le_rfl, nofun, nofun⟩
  | some a =>
    have heq : mjoin c (some a) = c ⊔ a := join_eq c a
    rw [heq]
    refine ⟨hc.sup (hlow a rfl), le_sup_left, fun a' ha' => ?_, fun h => hnot ⟨a, rfl, ?_⟩⟩
    · cases ha'
      exact le_sup_right
    · exact right_eq_sup.mp (Option.some.inj h)

theorem eqBound_iff (x y : Option l) : eqBound x y = true ↔ x = y := eq_iff (α := WithBot l) x y

theorem plan_lte {ve : ℕ} {c : l} {ml mu : Option l} {lb ub : List ℕ}
    (hr : (R.ri ml lb mu ub).Valid A B) (hc : Upp B c) :
    match plan ⟨ve, .lte, c⟩ (.ri ml lb mu ub) with
    | none => Clash A B
    | some (r', ks) => Planned A B ⟨ve, .lte, c⟩ (.ri ml lb mu ub) r' ks := by
  obtain ⟨hlow, hup⟩ : (∀ a, ml = some a → Low A a) ∧ ∀ b, mu = some b → Upp B b := hr
  unfold plan
  dsimp only
  split_ifs with hdone hsame hcross hidle
  all_goals simp only [Option.any_eq_true, lte_iff, eq_iff] at *
  · obtain ⟨b, hb, hle⟩ := hdone
    exact planned_same ⟨hlow, hup⟩ (Or.inl ⟨rfl, b, hb, hle⟩)
  · obtain ⟨a, ha, rfl⟩ := hsame
    exact planned_same ⟨hlow, hup⟩ (Or.inr ⟨rfl, nofun, hlow a ha, hc⟩)
  · obtain ⟨a, ha, hle⟩ := hcross
    have hne : ¬a ≤ c := fun h => hsame ⟨a, ha, le_antisymm h hle⟩
    exact ⟨⟨a, c, hlow a ha, hc, hne⟩, a, c, hlow a ha, hc, hle⟩
  all_goals
    obtain ⟨hnew, hle, hmu, hne⟩ := mmeet_spec hc hup hdone
    have hup' : ∀ b, some (mmeet c mu) = some b → Upp B b := fun b hb => Option.some.inj hb ▸ hnew
    have hbounds := boundsPlan_spec hlow hup' ve
  · exact absurd ((eqBound_iff _ _).mp hidle).symm hne
  · cases hplan : boundsPlan ve ml (some (mmeet c mu)) with
    | none =>
      rw [hplan] at hbounds
      exact hbounds
    | some ks =>
      rw [hplan] at hbounds
      refine ⟨⟨hlow, hup'⟩, nofun, fun _ _ _ _ h => ?_,
        fun a ha => ⟨a, ha, le_rfl⟩, fun b hb => ⟨_, rfl, hmu b hb⟩, Or.inl ⟨_, rfl, hle⟩,
        fun k' hk' => ?_, fun a ha hneq => absurd ha hneq, fun b hb _ z hz => ?_,
        fun a lb' b ub' h hba => ?_, Or.inl fun h => ?_⟩
      · cases h
        exact ⟨rfl, rfl⟩
      · cases List.mem_append.mp hk' with
        | inl h => exact Or.inl (hbounds.1 k' h)
        | inr h =>
          obtain ⟨z, hz, rfl⟩ := List.mem_map.mp h
          exact Or.inr (Or.inl ⟨rfl, hz, hnew⟩)
      · cases hb
        exact List.mem_append_right _ (List.mem_map_of_mem hz)
      · cases h
        exact Or.inr (List.mem_append_left _ (hbounds.2 a _ rfl rfl hba))
      · injection h with _ _ h
        exact hne h.symm

theorem plan_gte {ve : ℕ} {c : l} {ml mu : Option l} {lb ub : List ℕ}
    (hr : (R.ri ml lb mu ub).Valid A B) (hc : Low A c) :
    match plan ⟨ve, .gte, c⟩ (.ri ml lb mu ub) with
    | none => Clash A B
    | some (r', ks) => Planned A B ⟨ve, .gte, c⟩ (.ri ml lb mu ub) r' ks := by
  obtain ⟨hlow, hup⟩ : (∀ a, ml = some a → Low A a) ∧ ∀ b, mu = some b → Upp B b := hr
  unfold plan
  dsimp only
  split_ifs with hdone hsame hcross hidle
  all_goals simp only [Option.any_eq_true, lte_iff, eq_iff] at *
  · obtain ⟨a, ha, hle⟩ := hdone
    exact planned_same ⟨hlow, hup⟩ (Or.inl ⟨rfl, a, ha, hle⟩)
  · obtain ⟨b, hb, rfl⟩ := hsame
    exact planned_same ⟨hlow, hup⟩ (Or.inr ⟨rfl, nofun, hc, hup b hb⟩)
  · obtain ⟨b, hb, hle⟩ := hcross
    have hne : ¬c ≤ b := fun h => hsame ⟨b, hb, le_antisymm hle h⟩
    exact ⟨⟨c, b, hc, hup b hb, hne⟩, c, b, hc, hup b hb, hle⟩
  all_goals
    obtain ⟨hnew, hle, hml, hne⟩ := mjoin_spec hc hlow hdone
    have hlow' : ∀ a, some (mjoin c ml) = some a → Low A a := fun a ha => Option.some.inj ha ▸ hnew
    have hbounds := boundsPlan_spec hlow' hup ve
  · exact absurd ((eqBound_iff _ _).mp hidle).symm hne
  · cases hplan : boundsPlan ve (some (mjoin c ml)) mu with
    | none =>
      rw [hplan] at hbounds
      exact hbounds
    | some ks =>
      rw [hplan] at hbounds
      refine ⟨⟨hlow', hup⟩, nofun, fun _ _ _ _ h => ?_,
        fun a ha => ⟨_, rfl, hml a ha⟩, fun b hb => ⟨b, hb, le_rfl⟩, Or.inl ⟨_, rfl, hle⟩,
        fun k' hk' => ?_, fun a ha _ z hz => ?_, fun b hb hneq => absurd hb hneq,
        fun a lb' b ub' h hba => ?_, Or.inl fun h => ?_⟩
      · cases h
        exact ⟨rfl, rfl⟩
      · cases List.mem_append.mp hk' with
        | inl h => exact Or.inl (hbounds.1 k' h)
        | inr h =>
          obtain ⟨z, hz, rfl⟩ := List.mem_map.mp h
          exact Or.inr (Or.inr ⟨rfl, hz, hnew⟩)
      · cases ha
        exact List.mem_append_right _ (List.mem_map_of_mem hz)
      · cases h
        exact Or.inr (List.mem_append_left _ (hbounds.2 _ b rfl rfl hba))
      · injection h with h
        exact hne h.symm

theorem plan_spec (hr : r.Valid A B) (hk : k.Valid A B) : match plan k r with
    | none => Clash A B
    | some (r', ks) => Planned A B k r r' ks := by
  obtain ⟨ve, op, c⟩ := k
  cases r with
  | r x => exact plan_fixed hr hk
  | ri ml lb mu ub =>
    cases op with
    | lte => exact plan_lte hr (hk.2 nofun)
    | eq => exact plan_eq hr hk
    | gte => exact plan_gte hr (hk.1 nofun)

end Planned

end Jhc.UnionSolve
