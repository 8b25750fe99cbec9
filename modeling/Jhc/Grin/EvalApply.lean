import Jhc.Grin.ApplyRuns

/-!
# createEvalApply is correct (Grin/EvalInline.hs:126-162)

The tags that alternatives are made for are closed under application and include those
of all nodes that a run makes, so each application finds its alternative.
-/

namespace Jhc.Grin
open Jhc.Lib.Memory

/-! ### The tags of the program -/

section
variable {te : TyEnv} {s t f : Tag} {n : ℕ} {grin : GrinProgram} {e : Exp}

theorem tags_of_vals (h : t ∈ Val.tagsOf e.vals) : t ∈ e.tags := by
  by_cases hlett : ∃ ds b p, e = .lett ds b p
  · obtain ⟨ds, b, p, rfl⟩ := hlett
    cases h
  · exact (mem_tags fun ds b p heq => hlett ⟨ds, b, p, heq⟩).2 (.inr (.inl h))

theorem tags_of_block (hc : Cached e) {b : List Val × Exp} (hb : b ∈ e.blocks) (h : t ∈ b.2.tags) : t ∈ e.tags := by
  by_cases hlett : ∃ ds b p, e = .lett ds b p
  · obtain ⟨ds, b', p, rfl⟩ := hlett
    rcases List.mem_cons.1 hb with rfl | hb
    · exact mem_tags_lett.2 (.inl h)
    · obtain ⟨d, hd, rfl⟩ := List.mem_map.1 hb
      refine mem_tags_lett.2 (.inr ⟨d, hd, ?_⟩)
      rw [hc.lett.2.2.2 d hd]
      exact Finset.mem_union_right _ h
  · exact (mem_tags fun ds b p heq => hlett ⟨ds, b, p, heq⟩).2 (.inr (.inr ⟨b, hb, .inl h⟩))

theorem tags_of_node {x : Tag × ℕ} (hc : Cached e) (h : x ∈ e.nodes) : x.1 ∈ e.tags := by
  induction e using Exp.blocks_induction with
  | h e ih =>
    rcases Exp.mem_collect.1 h with h | ⟨b, hb, h⟩
    · exact tags_of_vals (mem_tagsOf_of_nodes _ h)
    · exact tags_of_block hc hb (ih b hb (hc.block hb) h)

def GrinProgram.tags (grin : GrinProgram) : Finset Tag :=
  (grin.grinFunctions.map fun d => d.body.exp.tags).foldr (· ∪ ·) ∅

theorem mem_applyTags : t ∈ applyTags grin ↔ ∃ s ∈ grin.tags, t ∈ mplad s := by
  unfold applyTags
  simp only [Finset.mem_sort, Finset.mem_union, List.mem_toFinset, List.mem_flatMap]
  constructor
  · rintro (h | ⟨s, hs, ht⟩)
    · exact ⟨t, h, mplad_self t⟩
    · exact ⟨s, hs, ht⟩
  · rintro ⟨s, hs, ht⟩
    exact .inr ⟨s, hs, ht⟩

theorem mplad_hasPartials (h : ∀ n f, tagUnfunction s = some (n + 1, f) → HasPartials te s n f) (ht : t ∈ mplad s)
    (hf : tagUnfunction t = some (n + 1, f)) : HasPartials te t n f := by
  induction s using mplad.induct with
  | case1 s m g hs s' hs' ih =>
    rw [mplad_step hs hs'] at ht
    rcases List.mem_cons.1 ht with rfl | ht
    · exact h n f hf
    · refine ih (fun k g' hg' => ?_) ht
      obtain ⟨cs, hcs⟩ := toList_of_tagUnfunction hs
      cases hg'.symm.trans (tagUnfunction_partialTag hcs hs')
      exact hasPartials_pred (h _ _ hs) hs'
  | case2 s m g hs hs' =>
    rw [mplad_stop fun n f t' hf hft' => by cases hs.symm.trans hf; cases hs'.symm.trans hft'] at ht
    rw [List.mem_singleton.1 ht] at hf ⊢
    exact h n f hf
  | case3 s hs =>
    rw [mplad_stop fun n f t' hf _ => hs n f hf] at ht
    rw [List.mem_singleton.1 ht] at hf ⊢
    exact h n f hf

end

/-! ### Programs with partial applications -/

/-- The type environment has the partial applications whose tags are in the program, and no
other entries of that kind. Their nodes are complete, the arguments of applications have
types, and the supply of names gives none that is in use. -/
structure GrinProgram.HasApply (grin : GrinProgram) (u : ℕ) : Prop where
  cached : ∀ d ∈ grin.grinFunctions, Cached d.body.exp
  partials : ∀ d ∈ grin.grinFunctions, ∀ t ∈ d.body.exp.tags, ∀ n f, tagUnfunction t = some (n + 1, f) →
    HasPartials grin.grinTypeEnv t n f
  complete : ∀ d ∈ grin.grinFunctions, ∀ x ∈ d.body.exp.nodes, ∀ n f tyty,
    tagUnfunction x.1 = some (n + 1, f) → findTyTy grin.grinTypeEnv x.1 = some tyty → x.2 = tyty.tySlots.length
  thunks : ∀ t tyty mt w, findTyTy grin.grinTypeEnv t = some tyty → tyty.tyThunk = .tyPApp mt w →
    ∃ n f, tagUnfunction t = some (n + 1, f)
  typed : ∀ d ∈ grin.grinFunctions, ∀ v ∈ d.body.exp.applyArgs, v.getType.isSome = true
  fresh : ∀ d ∈ grin.grinFunctions, ∀ i, u ≤ i → d.name ≠ applyName i ∧ applyName i ∉ d.body.exp.localNames

section
variable {grin : GrinProgram} {u : ℕ} {P : Prog}

theorem GrinProgram.HasApply.closed (hgrin : grin.HasApply u) :
    TagsClosed grin.grinTypeEnv (· ∈ applyTags grin) := by
  have hpartials : ∀ s ∈ grin.tags, ∀ n f, tagUnfunction s = some (n + 1, f) → HasPartials grin.grinTypeEnv s n f := by
    intro s hs n f hf
    obtain ⟨ss, hss, hs⟩ := mem_foldr_union.1 hs
    obtain ⟨d, hd, rfl⟩ := List.mem_map.1 hss
    exact hgrin.partials d hd s hs n f hf
  constructor
  · intro t n f ht hf
    obtain ⟨s, hs, ht⟩ := mem_applyTags.1 ht
    exact mplad_hasPartials (hpartials s hs) ht hf
  · intro t t' n f ht hf ht'
    obtain ⟨s, hs, ht⟩ := mem_applyTags.1 ht
    exact mem_applyTags.2 ⟨s, hs, mplad_closed ht hf ht'⟩

theorem GrinProgram.HasApply.textOk (hgrin : grin.HasApply u) {d : FuncDef} (hd : d ∈ grin.grinFunctions) :
    TextOk grin.grinTypeEnv (· ∈ applyTags grin) d.body.exp := by
  intro x hx n f hf
  have hmem : x.1 ∈ applyTags grin := by
    refine mem_applyTags.2 ⟨x.1, mem_foldr_union.2 ⟨_, List.mem_map_of_mem hd, ?_⟩, mplad_self _⟩
    exact tags_of_node (hgrin.cached d hd) hx
  obtain ⟨tyty, mt, w, r, htyty, -⟩ := hasPartials_spec (hgrin.closed.partials _ _ _ hmem hf)
  exact ⟨hmem, tyty, htyty, hgrin.complete d hd x hx n f tyty hf htyty⟩

/-! ### The functions of the result -/

theorem body_mem {f : Atom} {l : Lam} (h : P.body f = some l) :
    ∃ d ∈ P.grinFunctions, P.grinFunctions.find? (·.name = f) = some d ∧ d.name = f ∧ d.body = l := by
  obtain ⟨d, hd, hl⟩ := Option.map_eq_some_iff.1 h
  exact ⟨d, List.mem_of_find?_eq_some hd, hd, by simpa using List.find?_some hd, hl⟩

theorem applyFunc_gives {M : ApplyKey → Atom → Prop} {d : FuncDef} (hc : Cached d.body.exp)
    (hfresh : Fresh M d.body.exp) (hargs : ∀ v ∈ d.body.exp.applyArgs, v.getType.isSome = true) :
    Gives u M (applyFunc d) fun x => x.1 = d.name ∧ LamApplied M d.body x.2 := by
  unfold applyFunc applyLam
  refine gives_bind (Q := LamApplied M d.body) ?_ fun l => gives_pure fun hl => ⟨rfl, hl⟩
  exact gives_bind (applyExp_gives hc hfresh hargs) fun e => gives_pure fun he => ⟨rfl, he⟩

theorem find_funcs {M : ApplyKey → Atom → Prop} {ds : List FuncDef} {fs : List (Atom × Lam)} {f : Atom} {d : FuncDef}
    (h : List.Forall₂ (fun d x => x.1 = d.name ∧ LamApplied M d.body x.2) ds fs)
    (hd : ds.find? (·.name = f) = some d) :
    ∃ l, (fs.map fun x => createFuncDef x.1 x.2).find? (·.name = f) = some (createFuncDef f l) ∧
      LamApplied M d.body l := by
  induction h with
  | nil => cases hd
  | @cons d' x ds fs hx _ ih =>
    by_cases hf : d'.name = f
    · rw [List.find?_cons_of_pos (by simpa using hf)] at hd
      cases hd
      obtain ⟨n, l⟩ := x
      cases hx.1.trans hf
      exact ⟨l, by simp [createFuncDef], hx.2⟩
    · rw [List.find?_cons_of_neg (by simpa using hf)] at hd
      obtain ⟨l, hl, happ⟩ := ih hd
      refine ⟨l, ?_, happ⟩
      rw [List.map_cons, List.find?_cons_of_neg (by simpa [createFuncDef, hx.1] using hf)]
      exact hl

theorem apps_spec {te : TyEnv} {tags : List Tag} {m : List (ApplyKey × Atom)} {apps : List (Atom × Lam)}
    (h : m.mapM (applyBody te tags) = some apps) :
    List.Forall₂ (fun a x => x.1 = a.2 ∧ createApply a.1.1 a.1.2 te tags = some x.2) m apps := by
  induction m generalizing apps with
  | nil =>
    cases h
    exact .nil
  | cons a m ih =>
    simp only [List.mapM_cons, Option.bind_eq_bind, Option.bind_eq_some_iff, Option.pure_def,
      Option.some.injEq] at h
    obtain ⟨x, hx, apps, happs, rfl⟩ := h
    obtain ⟨l, hl, hx⟩ := Option.bind_eq_some_iff.1 hx
    cases hx
    exact .cons ⟨rfl, hl⟩ (ih happs)

theorem apps_names {te : TyEnv} {tags : List Tag} {m : List (ApplyKey × Atom)} {apps : List (Atom × Lam)}
    (h : List.Forall₂ (fun a x => x.1 = a.2 ∧ createApply a.1.1 a.1.2 te tags = some x.2) m apps) :
    apps.map Prod.fst = m.map Prod.snd := by
  induction h with
  | nil => rfl
  | cons hx _ ih => rw [List.map_cons, List.map_cons, hx.1, ih]

theorem find_apps {te : TyEnv} {tags : List Tag} {m : List (ApplyKey × Atom)} {apps : List (Atom × Lam)}
    {key : ApplyKey} {n : Atom} (ds : List FuncDef)
    (h : List.Forall₂ (fun a x => x.1 = a.2 ∧ createApply a.1.1 a.1.2 te tags = some x.2) m apps)
    (hm : (m.map Prod.snd).Nodup) (hn : (key, n) ∈ m) :
    ∃ l, ((apps.map fun x => createFuncDef x.1 x.2) ++ ds).find? (·.name = n) = some (createFuncDef n l) ∧
      createApply key.1 key.2 te tags = some l := by
  induction h with
  | nil => cases hn
  | @cons a x m apps hx _ ih =>
    rw [List.map_cons, List.nodup_cons] at hm
    rcases List.mem_cons.1 hn with rfl | hn
    · obtain ⟨n', l⟩ := x
      cases hx.1
      exact ⟨l, by simp [createFuncDef], hx.2⟩
    · have hne : x.1 ≠ n := by
        rw [hx.1]
        exact fun heq => hm.1 (heq ▸ List.mem_map_of_mem hn)
      obtain ⟨l, hl, hcreate⟩ := ih hm.2 hn
      refine ⟨l, ?_, hcreate⟩
      have hother : decide ((createFuncDef x.1 x.2).name = n) = false := decide_eq_false hne
      rw [List.map_cons, List.cons_append, List.find?_cons, hother]
      exact hl

/-- Each tag that an alternative is for has one. -/
theorem applyAlt_isSome (hgrin : grin.HasApply u) {argType : Ty} {ts : List Ty} {t : Tag} (ht : t ∈ applyTags grin)
    (hgood : tagGood argType ts grin.grinTypeEnv t = true) :
    (applyAlt argType grin.grinTypeEnv t).isSome = true := by
  obtain ⟨tyty, htyty⟩ := tyty_of_tagGood hgood
  have hthunk : ∃ mt w, tyty.tyThunk = .tyPApp mt w := by
    unfold tagGood at hgood
    rw [htyty] at hgood
    dsimp only at hgood
    split at hgood
    · next mt w hthunk => exact ⟨mt, w, hthunk⟩
    · cases hgood
  obtain ⟨mt, w, hthunk⟩ := hthunk
  obtain ⟨n, f, hf⟩ := hgrin.thunks t tyty mt w htyty hthunk
  obtain ⟨tyty', mt', w', r, -, -, hr, -, -, hzero, hsucc⟩ := hasPartials_spec (hgrin.closed.partials t n f ht hf)
  unfold applyAlt
  simp only [findArgsType, htyty, hf, Option.map_some, Option.bind_eq_bind, Option.bind_some]
  cases n with
  | zero =>
    rw [hzero rfl] at hr
    simp [hr]
  | succ n => simp [(hsucc n rfl).1]

theorem mapM_isSome {α β : Type} {f : α → Option β} {as : List α} (h : ∀ a ∈ as, (f a).isSome = true) :
    (as.mapM f).isSome = true := by
  induction as with
  | nil => rfl
  | cons a as ih =>
    obtain ⟨b, hb⟩ := Option.isSome_iff_exists.1 (h a List.mem_cons_self)
    obtain ⟨bs, hbs⟩ := Option.isSome_iff_exists.1 (ih fun a ha => h a (List.mem_cons_of_mem _ ha))
    rw [List.mapM_cons, hb, hbs]
    rfl

theorem applyBody_isSome (hgrin : grin.HasApply u) (a : ApplyKey × Atom) :
    (applyBody grin.grinTypeEnv (applyTags grin) a).isSome = true := by
  have halts : ∀ t ∈ ((applyTags grin).mergeSort fun a b => decide (a ≤ b)).filter
      (tagGood a.1.1 a.1.2 grin.grinTypeEnv), (applyAlt a.1.1 grin.grinTypeEnv t).isSome = true := by
    intro t ht
    rw [List.mem_filter, List.mem_mergeSort] at ht
    exact applyAlt_isSome hgrin ht.1 ht.2
  obtain ⟨cs, hcs⟩ := Option.isSome_iff_exists.1 (mapM_isSome halts)
  unfold applyBody createApply
  simp only [hcs, Option.bind_eq_bind, Option.bind_some]
  split <;> rfl

theorem createEvalApply_served (hgrin : grin.HasApply u) :
    ∃ grin' M, createEvalApply u grin = some grin' ∧ Served (P.setGrin grin) grin' (applyTags grin) M := by
  obtain ⟨funcs, m, hfuncs, -, hfrom, -⟩ := gives_mapM (M := fun _ _ => False)
    (fun d hd => applyFunc_gives (hgrin.cached d hd) (fun _ _ _ => not_false) (hgrin.typed d hd)) ⟨[], u⟩ from_nil
  let M : ApplyKey → Atom → Prop := fun key n => (key, n) ∈ m.map
  have hfresh : ∀ d ∈ grin.grinFunctions, Fresh M d.body.exp := by
    intro d hd n hn key hkey
    obtain ⟨i, hi, rfl⟩ := from_name hfrom hkey
    exact (hgrin.fresh d hd i hi).2 hn
  obtain ⟨funcs', m', hfuncs', -, -, hlams⟩ := gives_mapM (M := M)
    (fun d hd => applyFunc_gives (hgrin.cached d hd) (hfresh d hd) (hgrin.typed d hd)) ⟨[], u⟩ from_nil
  cases hfuncs.symm.trans hfuncs'
  have hlams := hlams fun x hx => hx
  obtain ⟨apps, happs⟩ := Option.isSome_iff_exists.1 (mapM_isSome fun a (_ : a ∈ m.map) => applyBody_isSome hgrin a)
  have happlies := apps_spec happs
  have hcreate : createEvalApply u grin = some ⟨(apps ++ funcs).map fun x => createFuncDef x.1 x.2,
      grin.grinTypeEnv ++ m.map.map fun a => (a.2, applyTy a.1)⟩ := by
    unfold createEvalApply
    simp only [hfuncs, happs, Option.bind_eq_bind, Option.bind_some]
  refine ⟨_, M, hcreate, fun f l hl => ?_, fun key n hn => ?_, hgrin.closed⟩
  · obtain ⟨d, hd, hfind, hname, rfl⟩ := body_mem hl
    obtain ⟨l', hl', happ⟩ := find_funcs hlams hfind
    refine ⟨l', ?_, happ⟩
    have hnone : (apps.map fun x => createFuncDef x.1 x.2).find? (·.name = f) = none := by
      rw [List.find?_eq_none]
      intro d' hd' heq
      obtain ⟨x, hx, rfl⟩ := List.mem_map.1 hd'
      have hmem : x.1 ∈ m.map.map Prod.snd := apps_names happlies ▸ List.mem_map_of_mem hx
      obtain ⟨⟨key, n⟩, hkey, hn⟩ := List.mem_map.1 hmem
      obtain ⟨i, hi, hni⟩ := from_name hfrom hkey
      have hxf : x.1 = f := of_decide_eq_true heq
      exact (hgrin.fresh d hd i hi).1 (hname.trans (hxf.symm.trans (hn.symm.trans hni)))
    rw [Prog.body, Prog.setGrin, List.map_append, List.find?_append, hnone, Option.none_or, hl']
    rfl
  · obtain ⟨l, hl, hcreate⟩ := find_apps (funcs.map fun x => createFuncDef x.1 x.2) happlies (from_nodup hfrom) hn
    refine ⟨l, ?_, hcreate⟩
    rw [Prog.body, Prog.setGrin, List.map_append, hl]
    rfl

/-- The applications become calls of the apply functions, and where only suspended calls are in
the store at first, a call of a function does the same as before but for reading the applied
nodes again. -/
theorem createEvalApply_runs (P : Prog) (hgrin : grin.HasApply u) :
    ∃ grin' M, createEvalApply u grin = some grin' ∧ Served (P.setGrin grin) grin' (applyTags grin) M ∧
      ∀ f l (σ : Store Cell) ws xs out, (P.setGrin grin).body f = some l →
        (∀ a t vs, σ a = some (.node t vs) → tagIsSuspFunction t = true) →
        RunLam (P.setGrin grin) l ws xs out → Ok σ xs →
        ∃ l' ys, (P.setGrin grin').body f = some l' ∧ RunLam (P.setGrin grin') l' ws ys out ∧ Ok σ ys ∧
          Rereads xs ys := by
  obtain ⟨grin', M, h, hs⟩ := createEvalApply_served (P := P) hgrin
  refine ⟨grin', M, h, hs, fun f l σ ws xs out hl hσ hrun hok => ?_⟩
  obtain ⟨ys, bs, zs, hbind, hrun, rfl⟩ := hrun
  obtain ⟨l', hl', hlam⟩ := hs.body f l hl
  have htext : ∀ f l, (P.setGrin grin).body f = some l →
      TextOk grin.grinTypeEnv (· ∈ applyTags grin) l.exp := by
    intro f l hl
    obtain ⟨d, hd, -, -, rfl⟩ := body_mem hl
    exact hgrin.textOk hd
  have htrusts : Trusts (CellOk grin.grinTypeEnv (· ∈ applyTags grin)) (ys ++ zs) :=
    trusts_append (binds_trusts hbind)
      (run_trusts hgrin.closed htext hrun (htext f l hl) fun g hg => absurd hg List.not_mem_nil)
  have hcells : ∀ a c, σ a = some c → CellOk grin.grinTypeEnv (· ∈ applyTags grin) c := by
    intro a c hac
    cases c with
    | node t vs =>
      intro n f hf
      cases (hσ a t vs hac).symm.trans (susp_eq_false hf)
    | _ => trivial
  have hreads := trusts_reads htrusts hok hcells
  obtain ⟨zs', hrun', hre⟩ := run_applied hs hrun (fun a c hac => hreads a c (List.mem_append_right _ hac)) hlam.2
    .nil
  have hall : Rereads (ys ++ zs) (ys ++ zs') := rereads_append rereads_refl hre
  exact ⟨l', _, hl', ⟨ys, bs, zs', hlam.1 ▸ hbind, hrun', rfl⟩, (rereads_ok hall).2 hok, hall⟩

end

/-! ### A program that applies a node twice -/

/-- What the type environment makes up for a name is not a partial application. -/
theorem mem_of_findTyTy {te : TyEnv} {t : Tag} {tyty : TyTy} (h : findTyTy te t = some tyty)
    (hthunk : tyty.tyThunk ≠ .tyNotThunk) : (t, tyty) ∈ te := by
  unfold findTyTy at h
  split at h
  · next r hr =>
    cases h
    exact Lib.mem_of_lookup hr
  · split at h
    · split at h
      · obtain ⟨r, -, rfl⟩ := Option.map_eq_some_iff.1 h
        exact absurd rfl hthunk
      · cases h
    · split at h
      · cases h
        exact absurd rfl hthunk
      · cases h

def pairUpFunc : FuncDef :=
  createFuncDef "fk" (.mk [.var 1 .tyINode, .var 2 .tyINode]
    (.ret [.nodeC "CPair" [.var 1 .tyINode, .var 2 .tyINode]]))

def pairUpMain : FuncDef :=
  createFuncDef "fmain" (.mk [] (.bind (.baseOp (.storeNode true) [.nodeC "P2_k" []])
    (.mk [.var 10 .tyNode] (.bind (.baseOp (.apply [.tyNode]) [.var 10 .tyNode, .valUnknown .tyINode])
      (.mk [.var 11 .tyNode] (.baseOp (.apply [.tyNode]) [.var 11 .tyNode, .valUnknown .tyINode]))))))

def pairUp : GrinProgram :=
  ⟨[pairUpMain, pairUpFunc], (makePartials "fk" [.tyINode, .tyINode] [.tyNode]).getD []⟩

theorem pairUp_hasApply : pairUp.HasApply 0 where
  cached := by decide +kernel
  partials := by
    intro d hd t ht n f hf
    have htags : ∀ d ∈ pairUp.grinFunctions, d.body.exp.tags ⊆ {"P2_k", "CPair"} := by decide +kernel
    have ht' := htags d hd ht
    rw [Finset.mem_insert, Finset.mem_singleton] at ht'
    rcases ht' with rfl | rfl
    · have h2 : tagUnfunction "P2_k" = some (2, "fk") := by decide
      cases h2.symm.trans hf
      exact ⟨by decide, [.tyINode, .tyINode], [.tyNode], pairUp.grinTypeEnv, by decide, by decide, by decide⟩
    · have hC : tagUnfunction "CPair" = none := by decide
      cases hC.symm.trans hf
  complete := by
    intro d hd x hx n f tyty hf htyty
    have hnodes : ∀ d ∈ pairUp.grinFunctions, ∀ x ∈ d.body.exp.nodes, x = ("P2_k", 0) ∨ x = ("CPair", 2) := by
      decide +kernel
    rcases hnodes d hd x hx with rfl | rfl
    · have h2 : findTyTy pairUp.grinTypeEnv "P2_k" = some ⟨[], [.tyNode], .tyPApp (some .tyINode) "P1_k", none⟩ := by
        decide
      cases h2.symm.trans htyty
      rfl
    · have hC : tagUnfunction "CPair" = none := by decide
      cases hC.symm.trans hf
  thunks := by
    intro t tyty mt w htyty hthunk
    have hmem := mem_of_findTyTy htyty (by rw [hthunk]; exact nofun)
    have hentries : ∀ x ∈ pairUp.grinTypeEnv, x.2.tyThunk = .tyNotThunk ∨ x.2.tyThunk = .tySusp "fk" ∨
        x.1 = "P1_k" ∨ x.1 = "P2_k" := by decide
    rcases hentries _ hmem with h | h | rfl | rfl
    · cases h.symm.trans hthunk
    · cases h.symm.trans hthunk
    · exact ⟨0, "fk", by decide⟩
    · exact ⟨1, "fk", by decide⟩
  typed := by decide +kernel
  fresh := by
    intro d hd i _
    have hnames : d.name.toList.head? = some 'f' ∧ d.body.exp.localNames = [] := by
      revert d
      decide +kernel
    refine ⟨fun h => ?_, by rw [hnames.2]; exact List.not_mem_nil⟩
    rw [h] at hnames
    simp [applyName] at hnames

/-- Without global variables and cheap primitives. -/
def bareProg : Prog where
  grinFunctions := []
  grinTypeEnv := []
  globals _ := none
  primOp _ _ := none
  primOp_ptrs h := by cases h

/-- The node for a pair takes one argument, then the other. -/
theorem pairUp_runs : ∃ grin' l' ys, createEvalApply 0 pairUp = some grin' ∧
    (bareProg.setGrin grin').body "fmain" = some l' ∧ RunLam (bareProg.setGrin grin') l' [] ys (.ret [.ptr 2 0]) ∧
    Rereads [.alloc 0 (.node "P2_k" []), .read 0 (.node "P2_k" []), .alloc 1 (.node "P1_k" [.unknown]),
      .read 1 (.node "P1_k" [.unknown]), .alloc 2 (.node "CPair" [.unknown, .unknown])] ys := by
  obtain ⟨grin', M, h, -, hruns⟩ := createEvalApply_runs bareProg pairUp_hasApply
  have hfk : (bareProg.setGrin pairUp).body "fk" = some pairUpFunc.body := rfl
  have hmain : (bareProg.setGrin pairUp).body "fmain" = some pairUpMain.body := rfl
  have hP2 : Applies pairUp.grinTypeEnv [.tyNode] [.valUnknown .tyINode] "P2_k" :=
    ⟨_, some .tyINode, "P1_k", _, rfl, rfl, rfl, rfl, rfl⟩
  have hP1 : Applies pairUp.grinTypeEnv [.tyNode] [.valUnknown .tyINode] "P1_k" :=
    ⟨_, some .tyINode, "fk", _, rfl, rfl, rfl, rfl, rfl⟩
  have hret : ∀ ρ : Frame, Run (bareProg.setGrin pairUp) [] (ρ.extend [(1, .unknown), (2, .unknown)]) pairUpFunc.body.exp
      [.alloc 2 (.node "CPair" [.unknown, .unknown])] (.ret [.ptr 2 0]) := by
    intro ρ
    have h1 : ρ.extend [(1, .unknown), (2, .unknown)] 1 = some .unknown := by simp [Frame.extend, Function.update]
    have h2 : ρ.extend [(1, .unknown), (2, .unknown)] 2 = some .unknown := by simp [Frame.extend, Function.update]
    have hnode : Vals (bareProg.setGrin pairUp) (ρ.extend [(1, .unknown), (2, .unknown)])
        [.nodeC "CPair" [.var 1 .tyINode, .var 2 .tyINode]]
        ([] ++ [.alloc 2 (.node "CPair" [.unknown, .unknown])]) [.ptr 2 0] := .node rfl (.var h1 (.var h2 .nil))
    exact .does (.ret hnode)
  have hlast : ∀ (ρ : Frame) (x : Var) (w : Value), ρ.extend [(x, w)] x = some w := fun ρ x w => by simp [Frame.extend]
  have hstore : ∀ ρ : Frame, Does (bareProg.setGrin pairUp) ρ (.baseOp (.storeNode true) [.nodeC "P2_k" []])
      ([] ++ [.alloc 0 (.node "P2_k" [])]) [.ptr 0 0] := fun ρ => .storeNode (.node rfl .nil)
  have hfirst : ∀ ρ : Frame, Does (bareProg.setGrin pairUp) (ρ.extend [(10, .ptr 0 0)])
      (.baseOp (.apply [.tyNode]) [.var 10 .tyNode, .valUnknown .tyINode])
      ([] ++ [.read 0 (.node "P2_k" []), .alloc 1 (.node "P1_k" ([] ++ [.unknown]))]) [.ptr 1 0] := fun ρ =>
    .applyPart (.var (hlast _ _ _) (.unknown .nil)) rfl rfl hP2
  have hsecond : ∀ ρ : Frame, Enters (bareProg.setGrin pairUp) (ρ.extend [(11, .ptr 1 0)])
      (.baseOp (.apply [.tyNode]) [.var 11 .tyNode, .valUnknown .tyINode])
      ([] ++ [.read 1 (.node "P1_k" [.unknown])]) "fk" ([.unknown] ++ [.unknown]) none := fun ρ =>
    .apply (.var (hlast _ _ _) (.unknown .nil)) rfl hP1
  have hrun : RunLam (bareProg.setGrin pairUp) pairUpMain.body [] [.alloc 0 (.node "P2_k" []), .read 0 (.node "P2_k" []),
      .alloc 1 (.node "P1_k" [.unknown]), .read 1 (.node "P1_k" [.unknown]),
      .alloc 2 (.node "CPair" [.unknown, .unknown])] (.ret [.ptr 2 0]) :=
    ⟨[], [], _, .nil, .bind (.does (hstore _)) (.var .nil) (.bind (.does (hfirst _)) (.var .nil)
      (.enter (hsecond _) (fun _ => rfl) hfk (.var (.var .nil)) (hret _))), rfl⟩
  obtain ⟨l', ys, hl', hrun', -, hre⟩ := hruns "fmain" _ (fun _ => none) [] _ _ hmain nofun hrun (by
    simp [Ok, Act.Ok, Act.run])
  exact ⟨grin', l', ys, h, hl', hrun', hre⟩

end Jhc.Grin
