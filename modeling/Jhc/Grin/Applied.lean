import Jhc.Grin.Calls
import Jhc.Grin.EvalInline

/-!
# Replaced applications (Grin/EvalInline.hs:140-151)

What an expression has become when each of its applications calls the function that was
generated for its types, and that this is what the traversal makes of it.
-/

namespace Jhc.Grin

/-! ### The relation -/

/-- A `Let` without functions, which the traversal would remove. -/
def Exp.isHollow : Exp → Bool
  | .lett [] _ _ => true
  | _ => false

def Exp.isApply : Exp → Bool
  | .baseOp (.apply _) [_] => true
  | .baseOp (.apply _) [_, _] => true
  | _ => false

/-- The applications in the first expression are calls of the functions that `M` names
for their types in the second one. -/
inductive Applied (M : ApplyKey → Atom → Prop) : Exp → Exp → Prop where
  | erased {ts v n} (h : M (.tyUnit, ts) n) : Applied M (.baseOp (.apply ts) [v]) (.app n [v] ts)
  | arg {ts v u t n} (ht : u.getType = some t) (h : M (t, ts) n) :
      Applied M (.baseOp (.apply ts) [v, u]) (.app n [v, u] ts)
  | keep {e es} (hkeep : e.isApply = false) (hfull : e.isHollow = false)
      (hdefs : ∀ d ∈ e.defs, ∀ key, ¬ M key d.name)
      (hes : List.Forall₂ (fun b e' => Applied M b.2 e') e.blocks es) : Applied M e (e.withBlocks es)

def LamApplied (M : ApplyKey → Atom → Prop) (l l' : Lam) : Prop := l'.bind = l.bind ∧ Applied M l.exp l'.exp

structure DefApplied (M : ApplyKey → Atom → Prop) (d d' : FuncDef) : Prop where
  name : d'.name = d.name
  body : LamApplied M d.body d'.body
  fresh : ∀ key, ¬ M key d.name

section
variable {M : ApplyKey → Atom → Prop} {e e' : Exp}

theorem applied_zip {ls : List Lam} {es : List Exp}
    (h : List.Forall₂ (fun b e' => Applied M b.2 e') (ls.map fun l => (l.bind, l.exp)) es) :
    List.Forall₂ (LamApplied M) ls (List.zipWith (fun l c => .mk l.bind c) ls es) := by
  induction ls generalizing es with
  | nil => exact .nil
  | cons l ls ih =>
    cases h with
    | cons hl hls => exact .cons ⟨rfl, hl⟩ (ih hls)

theorem applied_zipDefs {ds : List FuncDef} {es : List Exp}
    (h : List.Forall₂ (fun b e' => Applied M b.2 e') (ds.map fun d => (d.body.bind, d.body.exp)) es)
    (hfresh : ∀ d ∈ ds, ∀ key, ¬ M key d.name) :
    List.Forall₂ (DefApplied M) ds (List.zipWith
      (fun d c => (FuncDef.mk d.name (.mk d.body.bind c) d.props).updateFuncDefProps) ds es) := by
  induction ds generalizing es with
  | nil => exact .nil
  | cons d ds ih =>
    cases h with
    | cons hd hds =>
      refine .cons ⟨rfl, ⟨rfl, hd⟩, hfresh d List.mem_cons_self⟩ (ih hds fun d hd => ?_)
      exact hfresh d (List.mem_cons_of_mem _ hd)

theorem applied_flat (h : Applied M e e') (hblocks : e.blocks = []) (hkeep : e.isApply = false) : e' = e := by
  cases h with
  | erased h => cases hkeep
  | arg ht h => cases hkeep
  | @keep e es _ _ _ hes =>
    rw [hblocks] at hes
    cases hes
    cases e with
    | case v as =>
      rw [Exp.blocks, List.map_eq_nil_iff] at hblocks
      rw [hblocks]
      rfl
    | bind _ _ | lett _ _ _ | newRegion _ | mkCont _ _ | gcRoots _ _ => cases hblocks
    | _ => rfl

theorem applied_bind {l : Lam} (h : Applied M (.bind e l) e') :
    ∃ a l', e' = .bind a l' ∧ Applied M e a ∧ LamApplied M l l' := by
  cases h with
  | @keep e es _ _ _ hes =>
    cases hes with
    | cons ha hes =>
      cases hes with
      | cons hb hes =>
        cases hes
        exact ⟨_, _, rfl, ha, rfl, hb⟩

theorem applied_case {v : Val} {as : List Lam} (h : Applied M (.case v as) e') :
    ∃ as', e' = .case v as' ∧ List.Forall₂ (LamApplied M) as as' := by
  cases h with
  | @keep e es _ _ _ hes =>
    refine ⟨List.zipWith (fun l c => .mk l.bind c) as es, ?_, applied_zip hes⟩
    rcases es with _ | ⟨a, _ | ⟨b, _ | ⟨c, cs⟩⟩⟩ <;> rfl

theorem applied_lett {ds : List FuncDef} {b : Exp} {p : Option LetProps} (h : Applied M (.lett ds b p) e') :
    ∃ ds' b' p', e' = .lett ds' b' p' ∧ List.Forall₂ (DefApplied M) ds ds' ∧ Applied M b b' := by
  cases h with
  | @keep e es _ hfull hdefs hes =>
    cases hes with
    | @cons _ b' _ es hb hes =>
      have hds := applied_zipDefs hes hdefs
      cases ds with
      | nil => cases hfull
      | cons d ds =>
        cases es with
        | nil => cases hes
        | cons c cs => exact ⟨_, b', _, rfl, hds, hb⟩

theorem applied_newRegion {l : Lam} (h : Applied M (.newRegion l) e') :
    ∃ l', e' = .newRegion l' ∧ LamApplied M l l' := by
  cases h with
  | @keep e es _ _ _ hes =>
    cases hes with
    | cons ha hes =>
      cases hes
      exact ⟨_, rfl, rfl, ha⟩

theorem applied_gcRoots {vs : List Val} (h : Applied M (.gcRoots vs e) e') :
    ∃ a, e' = .gcRoots vs a ∧ Applied M e a := by
  cases h with
  | @keep e es _ _ _ hes =>
    cases hes with
    | cons ha hes =>
      cases hes
      exact ⟨_, rfl, ha⟩

end

/-! ### Names of apply functions -/

theorem applyName_injective : Function.Injective applyName := by
  intro i j h
  have hlist := congrArg String.toList h
  simp only [applyName, String.toList_append, List.append_cancel_left_eq] at hlist
  have hdigits : Nat.toDigits 10 i = Nat.toDigits 10 j := by
    rw [← Nat.toList_repr, ← Nat.toList_repr]
    exact hlist
  rw [← readDigits_toDigits i, hdigits, readDigits_toDigits]

/-- The names are those that the supply gave from `u` on. -/
def OnceMap.From (u : ℕ) (m : OnceMap) : Prop :=
  m.map.map Prod.snd = (List.range' u m.map.length).map applyName ∧ m.uniq = u + m.map.length

section
variable {u : ℕ} {m : OnceMap} {n : Atom} {key : ApplyKey}

theorem from_nil : OnceMap.From u ⟨[], u⟩ := ⟨rfl, rfl⟩

theorem from_nodup (h : m.From u) : (m.map.map Prod.snd).Nodup := by
  rw [h.1]
  exact List.Nodup.map applyName_injective List.nodup_range'

theorem from_name (h : m.From u) (hn : (key, n) ∈ m.map) : ∃ i, u ≤ i ∧ n = applyName i := by
  have hmem : n ∈ m.map.map Prod.snd := List.mem_map_of_mem hn
  rw [h.1, List.mem_map] at hmem
  obtain ⟨i, hi, rfl⟩ := hmem
  exact ⟨i, (List.mem_range'_1.1 hi).1, rfl⟩

/-- A step of the traversal gives a result with the property, for every relation that has the
names of the map that it leaves. -/
def Gives {α : Type} (u : ℕ) (M : ApplyKey → Atom → Prop) (s : StateT OnceMap Option α) (Q : α → Prop) : Prop :=
  ∀ m : OnceMap, m.From u → ∃ a m', s.run m = some (a, m') ∧ m.map ⊆ m'.map ∧ m'.From u ∧
    ((∀ x ∈ m'.map, M x.1 x.2) → Q a)

end

section
variable {u : ℕ} {M : ApplyKey → Atom → Prop} {α β : Type} {s : StateT OnceMap Option α} {Q : α → Prop}

theorem gives_pure {a : α} (h : Q a) : Gives u M (pure a) Q := fun m hm =>
  ⟨a, m, rfl, List.Subset.refl _, hm, fun _ => h⟩

theorem gives_bind {k : α → StateT OnceMap Option β} {R : β → Prop} (h : Gives u M s Q)
    (hk : ∀ a, Gives u M (k a) fun b => Q a → R b) : Gives u M (s >>= k) R := by
  intro m hm
  obtain ⟨a, m', ha, hsub, hm', hQ⟩ := h m hm
  obtain ⟨b, m'', hb, hsub', hm'', hR⟩ := hk a m' hm'
  refine ⟨b, m'', ?_, List.Subset.trans hsub hsub', hm'', fun hM => hR hM (hQ fun x hx => hM x (hsub' hx))⟩
  rw [StateT.run_bind, ha]
  exact hb

theorem gives_mapM {f : α → StateT OnceMap Option β} {R : α → β → Prop} {as : List α}
    (h : ∀ a ∈ as, Gives u M (f a) (R a)) : Gives u M (as.mapM f) (List.Forall₂ R as) := by
  induction as with
  | nil =>
    rw [List.mapM_nil]
    exact gives_pure .nil
  | cons a as ih =>
    rw [List.mapM_cons]
    refine gives_bind (h a List.mem_cons_self) fun b => ?_
    refine gives_bind (ih fun a ha => h a (List.mem_cons_of_mem _ ha)) fun bs => ?_
    exact gives_pure fun hbs hb => .cons hb hbs

theorem gives_runOnceMap (key : ApplyKey) : Gives u M (runOnceMap key) (M key) := by
  intro m hm
  have hrun : (runOnceMap key).run m = some ((m.map.lookup key).elim
      (applyName m.uniq, ⟨m.map ++ [(key, applyName m.uniq)], m.uniq + 1⟩) fun fn => (fn, m)) := by
    unfold runOnceMap
    simp only [StateT.run_bind, StateT.run_get, pure_bind]
    cases m.map.lookup key <;> rfl
  refine ⟨_, _, hrun, ?_⟩
  cases hfn : m.map.lookup key with
  | some fn => exact ⟨List.Subset.refl _, hm, fun hM => hM _ (Lib.mem_of_lookup hfn)⟩
  | none =>
    refine ⟨List.subset_append_left _ _, ⟨?_, ?_⟩, fun hM => ?_⟩
    · simp only [List.map_append, List.map_cons, List.map_nil, List.length_append, List.length_singleton,
        List.range'_concat, hm.1, hm.2, Nat.one_mul]
    · simp only [List.length_append, List.length_singleton, hm.2]
      omega
    · exact hM _ (List.mem_append_right _ (List.mem_singleton_self _))

theorem gives_lift {a : α} {o : Option α} (h : o = some a) : Gives u M (StateT.lift o) (· = a) := by
  intro m hm
  subst h
  exact ⟨a, m, rfl, List.Subset.refl _, hm, fun _ => rfl⟩

end

/-! ### The traversal -/

/-- The argument of an application. -/
def Exp.ownArg : Exp → List Val
  | .baseOp (.apply _) [_, u] => [u]
  | _ => []

def Exp.applyArgs (e : Exp) : List Val := e.collect Exp.ownArg

section
variable {u : ℕ} {M : ApplyKey → Atom → Prop}

/-- No local function has the name of an apply function. -/
def Fresh (M : ApplyKey → Atom → Prop) (e : Exp) : Prop := ∀ n ∈ e.localNames, ∀ key, ¬ M key n

theorem isHollow_of_cached {e : Exp} (h : Cached e) : e.isHollow = false := by
  cases e with
  | lett ds b p =>
    obtain ⟨hne, -⟩ := h.lett
    cases ds with
    | nil => exact absurd rfl hne
    | cons d ds => rfl
  | _ => rfl

theorem applyExp_gives {e : Exp} (hc : Cached e) (hfresh : Fresh M e)
    (hargs : ∀ v ∈ e.applyArgs, v.getType.isSome = true) : Gives u M (applyExp e) (Applied M e) := by
  induction e using Exp.blocks_induction with
  | h e ih =>
    rw [applyExp.eq_def]
    split
    · next ts v =>
      exact gives_bind (gives_runOnceMap _) fun n => gives_pure .erased
    · next ts v w =>
      obtain ⟨t, ht⟩ := Option.isSome_iff_exists.1 (hargs w (Exp.mem_collect.2 (.inl (List.mem_singleton_self w))))
      refine gives_bind (gives_lift ht) fun t' => ?_
      refine gives_bind (gives_runOnceMap _) fun n => ?_
      refine gives_pure fun hM ht' => .arg ?_ hM
      rw [ht, ht']
    · next hnot hnot' =>
      refine gives_bind (gives_mapM (R := fun b e' => Applied M b.1.2 e') fun b _ => ?_) fun es => ?_
      · refine ih b.1 b.2 (hc.block b.2) (fun n hn => ?_) fun v hv => ?_
        · exact hfresh n (Exp.localNames_block b.2 hn)
        · exact hargs v (Exp.mem_collect.2 (.inr ⟨b.1, b.2, hv⟩))
      · refine gives_pure fun hes => .keep ?_ (isHollow_of_cached hc) (fun d hd key => ?_) ?_
        · unfold Exp.isApply
          split
          · next ts v => exact absurd rfl (hnot ts v)
          · next ts v w => exact absurd rfl (hnot' ts v w)
          · rfl
        · refine hfresh d.name (List.mem_map.2 ⟨(d.name, d.body.bind), Exp.mem_localDefs.2 (.inl ?_), rfl⟩) key
          rw [Exp.ownDefs_eq]
          exact List.mem_map_of_mem hd
        · rw [← List.attach_map_subtype_val e.blocks, List.forall₂_map_left_iff]
          exact hes

end

end Jhc.Grin
