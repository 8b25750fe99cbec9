import Jhc.E.AnnotateNames

/-!
# Scopes under annotation
-/

namespace Jhc.E
open Jhc.Nameless

namespace Annotate

def image (m : VarMap) (y : Id) : Id :=
  match m.mlookup y with
  | some (some (.eVar t)) => t.tvrIdent
  | _ => y

theorem image_of_some {m : VarMap} {y : Id} {t : TVr} (h : m.mlookup y = some (some (.eVar t))) :
    image m y = t.tvrIdent := by
  unfold image
  rw [h]

theorem image_congr {m m' : VarMap} {y : Id} (h : m'.mlookup y = m.mlookup y) :
    image m' y = image m y := by
  unfold image
  rw [h]

/-- The empty identifier stands for nothing else. -/
def EmptyKept (m : VarMap) : Prop :=
  ∀ v, m.mlookup .emptyId = some (some v) → ∃ t, v = .eVar t ∧ t.tvrIdent = .emptyId

/-- The names have a variable in the map. -/
def Known (m : VarMap) (ys : List Id) : Prop :=
  ∀ y ∈ ys, y ≠ .emptyId →
    ∃ t, m.mlookup y = some (some (.eVar t)) ∧ t.tvrIdent ∈ m.keys ∧ t.tvrIdent ≠ .emptyId

def Agree (Γ Γ' : List Id) (m : VarMap) (ys : List Id) : Prop := ∀ y ∈ ys, Agrees Γ Γ' (image m) y

variable {m : VarMap} {Γ Γ' ns vs ys zs : List Id} {ts : List TVr}

theorem known_append : Known m (ys ++ zs) ↔ Known m ys ∧ Known m zs := by
  simp only [Known,List.mem_append,or_imp,forall_and]

theorem agree_append : Agree Γ Γ' m (ys ++ zs) ↔ Agree Γ Γ' m ys ∧ Agree Γ Γ' m zs := by
  simp only [Agree,List.mem_append,or_imp,forall_and]

theorem image_emptyId (h : EmptyKept m) : image m .emptyId = .emptyId := by
  unfold image
  split
  · next t ht =>
    obtain ⟨u, hu, hi⟩ := h _ ht
    injection hu with hu
    rw [hu,hi]
  · rfl

/-! ### Groups -/

/-- Binders `ns` of the group `vs` that are renamed to `ts`. -/
structure Group (m : VarMap) (vs ns : List Id) (ts : List TVr) : Prop where
  pairs : List.Forall₂ (fun n t => Chosen m vs n t.tvrIdent) ns ts
  distinct : Distinct ts

def under (ns : List Id) (ts : List TVr) (m : VarMap) : VarMap :=
  (List.zipWith step ns ts).foldr (· ∘ ·) id m

theorem under_cons (n : Id) (ns : List Id) (t : TVr) (ts : List TVr) (m : VarMap) :
    under (n :: ns) (t :: ts) m = step n t (under ns ts m) := rfl

theorem keys_under (ns : List Id) (ts : List TVr) {y : Id} (h : y ∈ m.keys) :
    y ∈ (under ns ts m).keys := by
  induction ns generalizing ts with
  | nil => exact h
  | cons n ns ih =>
    cases ts with
    | nil => exact h
    | cons t ts =>
      rw [under_cons]
      exact keys_step t _ (ih ts)

theorem keys_under_self (hp : List.Forall₂ (fun n t => Chosen m vs n t.tvrIdent) ns ts) {t : TVr}
    (ht : t ∈ ts) : t.tvrIdent = .emptyId ∨ t.tvrIdent ∈ (under ns ts m).keys := by
  induction hp with
  | nil => cases ht
  | @cons n u ns ts hc _ ih =>
    rw [under_cons]
    rcases List.mem_cons.mp ht with rfl | ht
    · rcases hc with ⟨_, he⟩ | ⟨hn, _⟩
      · exact Or.inl he
      · exact Or.inr (keys_step_self hn t _)
    · exact (ih ht).imp id (keys_step u _)

/-- A name that the group renames is not one of the new names of the others, and a name of the map
is none of them. -/
theorem old_ne_new {n y : Id} {t : TVr} (hc : Chosen m vs n t.tvrIdent) (hy : y ≠ .emptyId)
    (h : y ∈ vs ∨ y ∈ m.keys) (hn : y ≠ n) : y ≠ t.tvrIdent := by
  intro hyt
  rcases hc with ⟨_, he⟩ | ⟨_, _, hk, hv⟩
  · exact hy (hyt.trans he)
  · rcases h with h | h
    · rcases hv with hv | hv
      · exact hn (hyt.trans hv)
      · exact hv (hyt ▸ h)
    · exact hk (hyt ▸ h)

theorem mlookup_under (hp : List.Forall₂ (fun n t => Chosen m vs n t.tvrIdent) ns ts) {y : Id}
    (hy : y ≠ .emptyId) (h : y ∈ vs ∨ y ∈ m.keys) :
    y ∉ ns ∧ (under ns ts m).mlookup y = m.mlookup y ∨
      y ∈ ns ∧ ∃ t ∈ ts, (under ns ts m).mlookup y = some (some (.eVar t)) ∧
        t.tvrIdent ≠ .emptyId ∧ updates (image m) (ns.zip (idents ts)) y = t.tvrIdent := by
  induction hp with
  | nil => exact Or.inl ⟨List.not_mem_nil, rfl⟩
  | @cons n t ns ts hc _ ih =>
    rw [under_cons]
    have hz : (n :: ns).zip (idents (t :: ts)) = (n, t.tvrIdent) :: ns.zip (idents ts) := rfl
    rw [hz,updates]
    by_cases hyn : y = n
    · right
      subst hyn
      refine ⟨List.mem_cons_self .., t, List.mem_cons_self .., mlookup_step_self hy t _, ?_, ?_⟩
      · rcases hc with ⟨he, _⟩ | ⟨_, he, _⟩
        · exact absurd he hy
        · exact he
      · exact Function.update_self ..
    · rw [mlookup_step_of_ne hyn (old_ne_new hc hy h hyn),Function.update_of_ne hyn]
      rcases ih with ⟨hns, hl⟩ | ⟨hns, u, hu, hl⟩
      · exact Or.inl ⟨List.not_mem_cons_of_ne_of_not_mem hyn hns, hl⟩
      · exact Or.inr ⟨List.mem_cons_of_mem n hns, u, List.mem_cons_of_mem t hu, hl⟩

theorem mlookup_under_emptyId (hp : List.Forall₂ (fun n t => Chosen m vs n t.tvrIdent) ns ts)
    (h : EmptyKept m) : (under ns ts m).mlookup .emptyId = m.mlookup .emptyId ∧
      updates (image m) (ns.zip (idents ts)) .emptyId = .emptyId := by
  induction hp with
  | nil => exact ⟨rfl, image_emptyId h⟩
  | @cons n t ns ts hc _ ih =>
    rw [under_cons]
    have hz : (n :: ns).zip (idents (t :: ts)) = (n, t.tvrIdent) :: ns.zip (idents ts) := rfl
    rw [hz,updates]
    rcases hc with ⟨rfl, he⟩ | ⟨hn, he, _⟩
    · rw [step_emptyId,he]
      exact ⟨ih.1, Function.update_self ..⟩
    · rw [mlookup_step_of_ne hn.symm he.symm,Function.update_of_ne hn.symm]
      exact ih

theorem Group.emptyKept (hg : Group m vs ns ts) (h : EmptyKept m) : EmptyKept (under ns ts m) := by
  unfold EmptyKept
  rw [(mlookup_under_emptyId hg.pairs h).1]
  exact h

theorem mem_filter_notMem {y : Id} (hy : y ∈ ys) (hn : y ∉ ns) : y ∈ ys.filter (· ∉ ns) :=
  List.mem_filter.mpr ⟨hy, decide_eq_true hn⟩

/-- The names of a term under the group. -/
theorem Known.place (hk : Known m (ys.filter (· ∉ ns))) (hv : ∀ n ∈ ns, n ∈ vs) {y : Id}
    (hy : y ∈ ys) (hne : y ≠ .emptyId) : y ∈ vs ∨ y ∈ m.keys := by
  by_cases hn : y ∈ ns
  · exact Or.inl (hv y hn)
  · obtain ⟨t, ht, _⟩ := hk y (mem_filter_notMem hy hn) hne
    exact Or.inr (mem_of_mlookup ht)

theorem Group.known (hg : Group m vs ns ts) (hv : ∀ n ∈ ns, n ∈ vs)
    (hk : Known m (ys.filter (· ∉ ns))) : Known (under ns ts m) ys := by
  intro y hy hne
  rcases mlookup_under hg.pairs hne (hk.place hv hy hne) with ⟨hn, hl⟩ | ⟨_, t, ht, hl, he, _⟩
  · obtain ⟨t, ht, hkeys, he⟩ := hk y (mem_filter_notMem hy hn) hne
    exact ⟨t, hl.trans ht, keys_under ns ts hkeys, he⟩
  · exact ⟨t, hl, (keys_under_self hg.pairs ht).resolve_left he, he⟩

theorem Group.pair (hg : Group m vs ns ts) {p : Id × Id} (hp : p ∈ ns.zip (idents ts)) :
    Chosen m vs p.1 p.2 ∧ p.1 ∈ ns := by
  have hpairs := hg.pairs
  clear hg
  induction hpairs with
  | nil => cases hp
  | @cons n t ns ts hc _ ih =>
    rcases List.mem_cons.mp hp with rfl | hp
    · exact ⟨hc, List.mem_cons_self ..⟩
    · obtain ⟨hc', hn⟩ := ih hp
      exact ⟨hc', List.mem_cons_of_mem n hn⟩

theorem Group.fresh (hg : Group m vs ns ts) {x : Id} (hx : x ∈ idents ts) (hne : x ≠ .emptyId) :
    x ∉ m.keys := by
  have hpairs := hg.pairs
  clear hg
  induction hpairs with
  | nil => cases hx
  | @cons n t ns ts hc _ ih =>
    rcases List.mem_cons.mp hx with rfl | hx
    · rcases hc with ⟨_, he⟩ | ⟨_, _, hk, _⟩
      · exact absurd he hne
      · exact hk
    · exact ih hx

theorem Chosen.emptyId_iff {n n' : Id} (hc : Chosen m vs n n') : n' = .emptyId ↔ n = .emptyId := by
  rcases hc with ⟨hn, hn'⟩ | ⟨hn, hn', _⟩
  · exact ⟨fun _ => hn, fun _ => hn'⟩
  · exact ⟨fun h => absurd h hn', fun h => absurd h hn⟩

theorem distinct_cons {t : TVr} : Distinct (t :: ts) ↔
    (t.tvrIdent ≠ .emptyId → t.tvrIdent ∉ idents ts) ∧ Distinct ts := by
  have hi : idents (t :: ts) = t.tvrIdent :: idents ts := rfl
  unfold Distinct
  rw [hi]
  by_cases ht : t.tvrIdent = .emptyId
  · rw [List.filter_cons_of_neg (by simp [ht])]
    exact ⟨fun h => ⟨fun hn => absurd ht hn, h⟩, fun h => h.2⟩
  · rw [List.filter_cons_of_pos (by simp [ht]),List.nodup_cons,List.mem_filter]
    simp [ht]

theorem Group.apart (hg : Group m vs ns ts) : Apart (ns.zip (idents ts)) := by
  obtain ⟨hpairs, hd⟩ := hg
  induction hpairs with
  | nil => exact List.Pairwise.nil
  | @cons n t ns ts hc hpairs ih =>
    obtain ⟨ht, hts⟩ := distinct_cons.mp hd
    refine List.pairwise_cons.mpr ⟨?_, ih hts⟩
    intro q hq hne heq
    have hq2 : q.2 ∈ idents ts := (List.of_mem_zip hq).2
    by_cases he : t.tvrIdent = .emptyId
    · have hcq := (Group.pair ⟨hpairs, hts⟩ hq).1
      exact hne ((hc.emptyId_iff.mp he).trans (hcq.emptyId_iff.mp (heq.symm.trans he)).symm)
    · have hi : t.tvrIdent = q.2 := heq
      rw [hi] at ht he
      exact ht he hq2

theorem Group.agree (hg : Group m vs ns ts) (hv : ∀ n ∈ ns, n ∈ vs) (h : EmptyKept m)
    (hk : Known m (ys.filter (· ∉ ns))) :
    Agree (ns ++ Γ) (idents ts ++ Γ') (under ns ts m) ys ↔
      Agree Γ Γ' m (ys.filter (· ∉ ns)) := by
  have hlen : ns.length = (idents ts).length := by
    rw [idents,List.length_map]
    exact hg.pairs.length_eq
  have hfst : (ns.zip (idents ts)).map Prod.fst = ns := List.map_fst_zip hlen.le
  have hsnd : (ns.zip (idents ts)).map Prod.snd = idents ts := List.map_snd_zip hlen.ge
  have hone : ∀ y ∈ ys, Agrees (ns ++ Γ) (idents ts ++ Γ') (image (under ns ts m)) y ↔
      (y ∉ ns → Agrees Γ Γ' (image m) y) := by
    intro y hy
    have hfresh : y ∉ (ns.zip (idents ts)).map Prod.fst → ∀ p ∈ ns.zip (idents ts), image m y ≠ p.2 := by
      rw [hfst]
      intro hyn p hp
      obtain ⟨hc, hmem⟩ := hg.pair hp
      by_cases hye : y = .emptyId
      · rw [hye,image_emptyId h]
        rcases hc with ⟨he, _⟩ | ⟨_, he, _⟩
        · rw [hye,← he] at hyn
          exact absurd hmem hyn
        · exact he.symm
      · obtain ⟨t, ht, hkeys, hte⟩ := hk y (mem_filter_notMem hy hyn) hye
        rw [image_of_some ht]
        rcases hc with ⟨_, he⟩ | ⟨_, _, hf, _⟩
        · rw [he]
          exact hte
        · exact fun he => hf (he ▸ hkeys)
    have hu : Agrees (_ ++ Γ) (_ ++ Γ') _ y ↔ _ := agrees_updates hg.apart hfresh
    rw [hfst,hsnd] at hu
    have himg : image (under ns ts m) y = updates (image m) (ns.zip (idents ts)) y := by
      by_cases hye : y = .emptyId
      · obtain ⟨hl, hup⟩ := mlookup_under_emptyId hg.pairs h
        rw [hye,hup,image_congr hl,image_emptyId h]
      · rcases mlookup_under hg.pairs hye (hk.place hv hy hye) with ⟨hn, hl⟩ | ⟨_, t, _, hl, _, hup⟩
        · rw [image_congr hl,updates_of_notMem (hfst.symm ▸ hn)]
        · rw [image_of_some hl,hup]
    unfold Agrees at hu ⊢
    rw [himg]
    exact hu
  unfold Agree
  constructor
  · intro ha y hy
    obtain ⟨hy, hyn⟩ := List.mem_filter.mp hy
    exact (hone y hy).mp (ha y hy) (of_decide_eq_true hyn)
  · intro ha y hy
    exact (hone y hy).mpr fun hyn => ha y (mem_filter_notMem hy hyn)

/-! ### The binders that annotation names -/

theorem Chosen.mono {m' : VarMap} {n n' : Id} (hc : Chosen m' vs n n')
    (h : ∀ y ∈ m.keys, y ∈ m'.keys) : Chosen m vs n n' :=
  hc.imp id fun hr => ⟨hr.1, hr.2.1, fun hk => hr.2.2.1 (h _ hk), hr.2.2.2⟩

theorem mapMntvr_steps (vs : List Id) (m : VarMap) (ts : List TVr) :
    (mapMntvr vs m ts).map Prod.snd =
      List.zipWith step (idents ts) ((mapMntvr vs m ts).map Prod.fst) := by
  induction ts generalizing m with
  | nil => rfl
  | cons t ts ih => exact congrArg₂ List.cons (ntvr_step vs m t) (ih _)

theorem mapMntvr_under (vs : List Id) (m : VarMap) (ts : List TVr) :
    ((mapMntvr vs m ts).map Prod.snd).foldr (· ∘ ·) id m =
      under (idents ts) ((mapMntvr vs m ts).map Prod.fst) m := by
  rw [mapMntvr_steps]
  rfl

theorem mapMntvr_group (vs : List Id) (m : VarMap) (ts : List TVr) :
    Group m vs (idents ts) ((mapMntvr vs m ts).map Prod.fst) := by
  induction ts generalizing m with
  | nil => exact ⟨List.Forall₂.nil, List.nodup_nil⟩
  | cons t ts ih =>
    have hg := ih ((ntvr vs m t).2 m)
    have hc := ntvr_chosen vs m t
    have hkeys : ∀ y ∈ m.keys, y ∈ ((ntvr vs m t).2 m).keys := by
      intro y hy
      rw [ntvr_step]
      exact keys_step _ _ hy
    refine ⟨List.Forall₂.cons hc (hg.pairs.imp fun _ _ hr => hr.mono hkeys), ?_⟩
    refine distinct_cons.mpr ⟨?_, hg.distinct⟩
    intro he hmem
    have hin : (ntvr vs m t).1.tvrIdent ∈ ((ntvr vs m t).2 m).keys := by
      rw [ntvr_step]
      exact keys_step_self (fun hn => he (hc.emptyId_iff.mpr hn)) _ _
    exact hg.fresh hmem he hin

theorem mapMntvrDefs_eq (vs : List Id) (m : VarMap) (ds : List Def) :
    mapMntvrDefs vs m ds = mapMntvr vs m (ds.map Def.var) := by
  induction ds generalizing m with
  | nil => rfl
  | cons d ds ih =>
    cases d with
    | mk t e => exact congrArg (ntvr vs m t :: ·) (ih _)

/-- One binder is a group. -/
theorem ntvr_group (vs : List Id) (m : VarMap) (t : TVr) :
    Group m [t.tvrIdent] [t.tvrIdent] [(ntvr vs m t).1] where
  pairs := by
    refine List.Forall₂.cons ?_ List.Forall₂.nil
    refine (ntvr_chosen vs m t).imp id fun hr => ⟨hr.1, hr.2.1, hr.2.2.1, ?_⟩
    rw [List.mem_singleton]
    exact em _
  distinct := distinct_cons.mpr ⟨fun _ => List.not_mem_nil, List.nodup_nil⟩

theorem ntvr_under (vs : List Id) (m : VarMap) (t : TVr) :
    (ntvr vs m t).2 m = under [t.tvrIdent] [(ntvr vs m t).1] m := by
  rw [ntvr_step]
  rfl

end Annotate

end Jhc.E
