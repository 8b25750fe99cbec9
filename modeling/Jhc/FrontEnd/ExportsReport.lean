import Jhc.FrontEnd.Exports
import Mathlib.Data.Set.Basic

/-!
# What modules export

The equations of the report between the exports of modules, over families of relations that
need not be finite, and the solution they determine.
-/

namespace Jhc.FrontEnd.Exports

/-- What each module exports, under which name. -/
abbrev Family := Module → Name → Name → Prop

/-! ### The equations -/

section
variable (ownsMap : Owns)

/-- The item names `y` as `x`; `r` tells which types and classes there are. -/
def Selects (isHiding : Bool) (r : Name → Name → Prop) : Option NameType → HsEntSpec → Name → Name → Prop
  | _, .var n, x, _ => x = toName .Val n
  | none, .abs n, x, _ => x ∈ thingNames none n ∨ isHiding = true ∧ x = toName .DataConstructor n
  | some nt, .abs n, x, _ => x = toName nt n
  | mnt, .thingWith n xs, x, _ => x ∈ thingNames mnt n ∨ ∃ z ∈ xs, x ∈ subNames z
  | mnt, .thingAll n, x, y => x ∈ thingNames mnt n ∨ ∃ t o, t ∈ thingNames mnt n ∧ r t o ∧ y ∈ ownsMap o
  | _, .qualified t e, x, y => Selects isHiding r (some t) e x y

/-- An import declaration of a module that exports `r`; what is owned by a type of `T` can be hidden. -/
def Provides (x : HsImportDecl) (T r : Name → Name → Prop) (k y : Name) : Prop :=
  r k y ∧ match x.spec with
    | none => True
    | some (false, xs) => ∃ e ∈ xs, Selects ownsMap false r none e k y
    | some (true, xs) => ¬ ∃ e ∈ xs, Selects ownsMap true T none e k y

def Scope (mi : ModInfo) (T r : Family) (k y : Name) : Prop :=
  (y ∈ mi.defs ∧ (k = toUnqualified y ∨ k = y)) ∨
  ∃ x ∈ modInfoModImports mi, ∃ k', Provides ownsMap x (T x.module) (r x.module) k' y ∧
    (k = qualifyName (x.as.getD x.module) k' ∨ x.qualified = false ∧ k = k')

def ItemExports (mi : ModInfo) (T r : Family) (k y : Name) : HsExportSpec → Prop
  | .moduleContents m =>
    k.getModule = none ∧ Scope ownsMap mi T r k y ∧ Scope ownsMap mi T r (qualifyName m k) y
  | .ent e => ∃ k', Scope ownsMap mi T r k' y ∧
      Selects ownsMap false (Scope ownsMap mi T r) none e k' y ∧ k = toUnqualified k'

def ModuleExports (mi : ModInfo) (T r : Family) (k y : Name) : Prop :=
  match mi.exports with
  | none => y ∈ mi.defs ∧ k = toUnqualified y
  | some es => ∃ z ∈ es, ItemExports ownsMap mi T r k y z

end

/-- The order in which entities own one another (collectDefsHsModule). -/
def NameType.level : NameType → ℕ
  | .SortName | .ClassName => 0
  | .TypeConstructor => 1
  | .DataConstructor => 2
  | _ => 3

/-- The modules of a run: each has its own name, and imports modules that there are. -/
structure Program where
  ownsMap : Owns
  doneMods : Module → Option (List Name)
  modules : Set ModInfo
  name_inj : ∀ mi ∈ modules, ∀ mi' ∈ modules, mi.name = mi'.name → mi = mi'
  not_done : ∀ mi ∈ modules, doneMods mi.name = none
  closed : ∀ mi ∈ modules, ∀ x ∈ modInfoModImports mi,
    (doneMods x.module).isSome = true ∨ ∃ mi' ∈ modules, mi'.name = x.module
  owned : ∀ o, ∀ y ∈ ownsMap o, o.nameType.level < y.nameType.level

section
variable (p : Program)

/-- The right sides of the equations. -/
def Exported (T r : Family) : Family := fun m k y =>
  (∃ xs, p.doneMods m = some xs ∧ y ∈ xs ∧ k = toUnqualified y) ∨
  ∃ mi ∈ p.modules, mi.name = m ∧ ModuleExports p.ownsMap mi T r k y

/-- The least family that the equations allow, when `T` tells what hides. -/
def Least (T : Family) : Family := fun m k y => ∀ r : Family, (∀ m k y, Exported p T r m k y → r m k y) → r m k y

/-- A solution, and the least of the solutions in which the same is hidden. -/
def IsLeastSolution (r : Family) : Prop := ∀ m k y, r m k y ↔ Least p r m k y

end

/-! ### Monotone in what is exported -/

section
variable {p : Program} {n : ℕ} {m : Module} {k y : Name}

/-- What the first relation has of the entities up to the level, the second has. -/
def LeTo (n : ℕ) (r r' : Name → Name → Prop) : Prop := ∀ k y, y.nameType.level ≤ n → r k y → r' k y

def LtTo (n : ℕ) (r r' : Name → Name → Prop) : Prop := ∀ k y, y.nameType.level < n → r k y → r' k y

theorem Selects.mono {isHiding : Bool} {r r' : Name → Name → Prop} (hy : y.nameType.level ≤ n) (h : LtTo n r r')
    {mnt : Option NameType} {e : HsEntSpec} (hsel : Selects p.ownsMap isHiding r mnt e k y) :
    Selects p.ownsMap isHiding r' mnt e k y := by
  induction e generalizing mnt with
  | var n => exact hsel
  | abs n => cases mnt <;> exact hsel
  | thingAll n =>
    rcases hsel with hx | ⟨t, o, ht, hr, ho⟩
    · exact .inl hx
    · exact .inr ⟨t, o, ht, h t o (lt_of_lt_of_le (p.owned o y ho) hy) hr, ho⟩
  | thingWith n xs => exact hsel
  | qualified t e ih => exact ih hsel

theorem LeTo.lt {r r' : Name → Name → Prop} (h : LeTo n r r') : LtTo n r r' :=
  fun k y hy => h k y hy.le

theorem Provides.mono {x : HsImportDecl} {T T' r r' : Name → Name → Prop} (hr : LeTo n r r') (hT : LtTo n T' T)
    (hy : y.nameType.level ≤ n) (h : Provides p.ownsMap x T r k y) : Provides p.ownsMap x T' r' k y := by
  obtain ⟨hk, hspec⟩ := h
  refine ⟨hr k y hy hk, ?_⟩
  split at hspec
  · trivial
  · obtain ⟨e, he, hsel⟩ := hspec
    exact ⟨e, he, hsel.mono hy hr.lt⟩
  · rintro ⟨e, he, hsel⟩
    exact hspec ⟨e, he, hsel.mono hy hT⟩

variable {T T' r r' : Family}

theorem Scope.mono {mi : ModInfo} (hr : ∀ m, LeTo n (r m) (r' m)) (hT : ∀ m, LtTo n (T' m) (T m)) :
    LeTo n (Scope p.ownsMap mi T r) (Scope p.ownsMap mi T' r') := by
  rintro k y hy (hdef | ⟨x, hx, k', hprov, hk⟩)
  · exact .inl hdef
  · exact .inr ⟨x, hx, k', hprov.mono (hr x.module) (hT x.module) hy, hk⟩

theorem ModuleExports.mono {mi : ModInfo} (hr : ∀ m, LeTo n (r m) (r' m)) (hT : ∀ m, LtTo n (T' m) (T m)) :
    LeTo n (ModuleExports p.ownsMap mi T r) (ModuleExports p.ownsMap mi T' r') := by
  intro k y hy h
  have hscope : LeTo n (Scope p.ownsMap mi T r) (Scope p.ownsMap mi T' r') := Scope.mono hr hT
  unfold ModuleExports at h ⊢
  split at h
  · exact h
  · obtain ⟨z, hz, hitem⟩ := h
    refine ⟨z, hz, ?_⟩
    cases z with
    | moduleContents m => exact ⟨hitem.1, hscope k y hy hitem.2.1, hscope _ y hy hitem.2.2⟩
    | ent e =>
      obtain ⟨k', hk', hsel, rfl⟩ := hitem
      exact ⟨k', hscope k' y hy hk', hsel.mono hy hscope.lt, rfl⟩

theorem Exported.mono (hr : ∀ m, LeTo n (r m) (r' m)) (hT : ∀ m, LtTo n (T' m) (T m)) (m : Module) :
    LeTo n (Exported p T r m) (Exported p T' r' m) := by
  rintro k y hy (hdone | ⟨mi, hmi, hname, h⟩)
  · exact .inl hdone
  · exact .inr ⟨mi, hmi, hname, ModuleExports.mono hr hT k y hy h⟩

/-- When the same is hidden. -/
theorem Exported.mono_right (hr : ∀ m k y, r m k y → r' m k y) (h : Exported p T r m k y) : Exported p T r' m k y :=
  Exported.mono (fun m k y _ => hr m k y) (fun _ _ _ _ => id) m k y (Nat.le_refl _) h

/-! ### The solution -/

theorem Least.closed (h : Exported p T (Least p T) m k y) : Least p T m k y :=
  fun r hr => hr m k y (h.mono_right fun m k y hl => hl r hr)

theorem Least.exported (h : Least p T m k y) : Exported p T (Least p T) m k y :=
  h _ fun _ _ _ h => h.mono_right fun _ _ _ => Least.closed

/-- What is least depends on what hides below the level only. -/
theorem Least.agree (hT : ∀ m, LtTo n (T' m) (T m)) (m : Module) : LeTo n (Least p T m) (Least p T' m) := by
  intro k y hy h
  refine h (fun m k y => y.nameType.level ≤ n → Least p T' m k y) (fun m k y hexp hy => ?_) hy
  exact Least.closed (Exported.mono (fun m k y hy h => h hy) hT m k y hy hexp)

theorem IsLeastSolution.solves (h : IsLeastSolution p r) : r m k y ↔ Exported p r r m k y := by
  have heq : r = Least p r := funext fun m => funext fun k => funext fun y => propext (h m k y)
  constructor
  · intro hr
    rw [heq] at hr
    have hexp := hr.exported
    rwa [← heq] at hexp
  · intro hexp
    rw [heq]
    refine Least.closed ?_
    rwa [← heq]

/-- There is one solution. -/
theorem IsLeastSolution.unique (h : IsLeastSolution p r) (h' : IsLeastSolution p r') (m : Module) (k y : Name) :
    r m k y ↔ r' m k y := by
  have hagree : ∀ n m k y, y.nameType.level ≤ n → (r m k y ↔ r' m k y) := by
    intro n
    induction n using Nat.strong_induction_on with
    | _ n ih =>
      intro m k y hy
      rw [h m k y, h' m k y]
      exact ⟨Least.agree (fun m k y hlt => (ih _ hlt m k y (Nat.le_refl _)).2) m k y hy,
        Least.agree (fun m k y hlt => (ih _ hlt m k y (Nat.le_refl _)).1) m k y hy⟩
  exact hagree _ m k y (Nat.le_refl _)

/-- Each round settles what hides on one more level. -/
def rounds (p : Program) : ℕ → Family
  | 0 => fun _ _ _ => False
  | n + 1 => Least p (rounds p n)

/-- What the modules export. -/
def exportsOf (p : Program) : Family := rounds p 4

theorem rounds_agree (p : Program) (n : ℕ) (m : Module) :
    LtTo n (rounds p n m) (rounds p (n + 1) m) ∧ LtTo n (rounds p (n + 1) m) (rounds p n m) := by
  induction n generalizing m with
  | zero => exact ⟨fun _ _ h => absurd h (Nat.not_lt_zero _), fun _ _ h => absurd h (Nat.not_lt_zero _)⟩
  | succ n ih =>
    exact ⟨fun k y hy => Least.agree (fun m => (ih m).2) m k y (Nat.le_of_lt_succ hy),
      fun k y hy => Least.agree (fun m => (ih m).1) m k y (Nat.le_of_lt_succ hy)⟩

theorem level_le (t : NameType) : t.level ≤ 3 := by
  cases t <;> decide

theorem exportsOf_least (p : Program) : IsLeastSolution p (exportsOf p) := by
  intro m k y
  have hy : y.nameType.level < 4 := Nat.lt_succ_of_le (level_le _)
  exact ⟨(rounds_agree p 4 m).1 k y hy, (rounds_agree p 4 m).2 k y hy⟩

end

end Jhc.FrontEnd.Exports
