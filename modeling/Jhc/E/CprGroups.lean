import Jhc.E.Cpr

/-!
# The environment after a let group

The groups of a let come in the order of their dependencies. Where the rounds of every
recursive group have settled, the environment after them gives each variable the value
that the analysis of its right-hand side has in this environment.
-/

namespace Jhc.E.Cpr
open Jhc.FrontEnd.Exports (Name)
open Jhc.Util (fromScc IsScc)

variable {T : Tables} {env env' : Env} {t : TVr} {v : Val} {x : Id} {n m : Node} {xs ns : List Node}
  {gs rs : List (Node ⊕ List Node)} {zs : List (Def × Val)} {mp : List (Node × Val)} {e ty : E} {es : List E}

/-! ### Variables that are not bound -/

/-- The bound variables that the expression uses. -/
def usedOf (xs : List TVr) (e : E) : List Id := (xs.map TVr.tvrIdent).filter (· ∈ freeIds e)

mutual

/-- The variables bound by cases and by function types, which the analysis does not bind. -/
def caseVars : E → List Id
  | .eLetRec ds e => caseVarsDefs ds ++ caseVars e
  | .eLam _ e => caseVars e
  | .eCase _ _ t as d => caseVarsAlts t as ++ caseVarsDefault t d
  | .eAp f _ => caseVars f
  | .eLit _ es _ => caseVarsArgs es
  | .ePi t e => usedOf [t] e ++ caseVars e ++ caseVarsType t
  | _ => []

def caseVarsType : TVr → List Id
  | .mk x t => usedOf [.mk x t] t ++ caseVars t

def caseVarsArgs : List E → List Id
  | [] => []
  | e :: es => caseVars e ++ caseVarsArgs es

def caseVarsDefs : List Def → List Id
  | [] => []
  | d :: ds => caseVarsDef d ++ caseVarsDefs ds

def caseVarsDef : Def → List Id
  | .mk _ e => caseVars e

def caseVarsAlts (t : TVr) : List Alt → List Id
  | [] => []
  | a :: as => caseVarsAlt t a ++ caseVarsAlts t as

def caseVarsAlt (t : TVr) : Alt → List Id
  | .litInt _ _ e => usedOf [t] e ++ caseVars e
  | .litCons _ xs _ e => usedOf (t :: xs) e ++ caseVars e

def caseVarsDefault (t : TVr) : Option E → List Id
  | none => []
  | some e => usedOf [t] e ++ caseVars e

end

mutual

/-- A let binds distinct variables, and no case or function type binds again what a let or a
function around it does. -/
def Hygienic : E → Prop
  | .eLetRec ds e =>
    ((ds.map fun d => d.var.tvrIdent).Nodup ∧ ∀ d ∈ ds, d.var.tvrIdent ∉ caseVarsDefs ds ++ caseVars e) ∧
      HygienicDefs ds ∧ Hygienic e
  | .eLam t e => t.tvrIdent ∉ caseVars e ∧ Hygienic e
  | .eCase _ _ _ as d => HygienicAlts as ∧ HygienicDefault d
  | .eAp f _ => Hygienic f
  | .eLit _ es _ => HygienicArgs es
  | .ePi t e => HygienicType t ∧ Hygienic e
  | _ => True

def HygienicType : TVr → Prop
  | .mk _ t => Hygienic t

def HygienicArgs : List E → Prop
  | [] => True
  | e :: es => Hygienic e ∧ HygienicArgs es

def HygienicDefs : List Def → Prop
  | [] => True
  | d :: ds => HygienicDef d ∧ HygienicDefs ds

def HygienicDef : Def → Prop
  | .mk _ e => Hygienic e

def HygienicAlts : List Alt → Prop
  | [] => True
  | a :: as => HygienicAlt a ∧ HygienicAlts as

def HygienicAlt : Alt → Prop
  | .litInt _ _ e => Hygienic e
  | .litCons _ _ _ e => Hygienic e

def HygienicDefault : Option E → Prop
  | none => True
  | some e => Hygienic e

end

namespace Node

def ident (n : Node) : Id := n.1.var.tvrIdent

/-- The variables that the analysis of the right-hand side looks at. -/
def looked (n : Node) : List Id := bindingFreeVars n ++ caseVarsDef n.1

def Local (n : Node) : Prop :=
  ∀ env env' : Env, (∀ x ∈ n.looked, env x = env' x) → n.2 env = n.2 env'

attribute [local grind =] caseVars caseVarsArgs Hygienic

end Node

/-- The variables of the groups. -/
def ids (gs : List (Node ⊕ List Node)) : List Id := (gs.flatMap fromScc).map Node.ident

/-! ### Environments -/

namespace Env

theorem insert_self : env.insert t v t.tvrIdent = some v := if_pos rfl

theorem insert_of_ne (h : x ≠ t.tvrIdent) : env.insert t v x = env x := if_neg h

theorem foldl_insert_of_notMem {l : List (TVr × Val)} (h : x ∉ l.map fun p => p.1.tvrIdent) :
    l.foldl (fun env p => env.insert p.1 p.2) env x = env x := by
  induction l generalizing env with
  | nil => rfl
  | cons p l ih =>
    simp only [List.map_cons, List.mem_cons, not_or] at h
    rw [List.foldl_cons, ih h.2, insert_of_ne h.1]

theorem foldl_insert_of_mem {l : List (TVr × Val)} {p : TVr × Val} (hnd : (l.map fun p => p.1.tvrIdent).Nodup)
    (hp : p ∈ l) : l.foldl (fun env p => env.insert p.1 p.2) env p.1.tvrIdent = some p.2 := by
  induction l generalizing env with
  | nil => cases hp
  | cons q l ih =>
    rw [List.map_cons, List.nodup_cons] at hnd
    rw [List.foldl_cons]
    rcases List.mem_cons.1 hp with rfl | hp
    · rw [foldl_insert_of_notMem hnd.1, insert_self]
    · exact ih hnd.2 hp

end Env

theorem nenv_of_notMem (h : x ∉ mp.map fun p => p.1.ident) : nenv env mp x = env x := by
  have hnone : Env.fromList (mp.map fun p => (p.1.1.var, p.2)) x = none :=
    Env.foldl_insert_of_notMem (by simpa [Node.ident] using h)
  rw [nenv, Env.append, hnone, Option.none_or]

theorem nenv_of_mem {p : Node × Val} (hnd : (mp.map fun p => p.1.ident).Nodup) (hp : p ∈ mp) :
    nenv env mp p.1.ident = some p.2 := by
  have hsome : Env.fromList (mp.map fun p => (p.1.1.var, p.2)) p.1.ident = some p.2 :=
    Env.foldl_insert_of_mem (p := (p.1.1.var, p.2)) (by simpa [Node.ident, Function.comp_def] using hnd)
      (List.mem_map_of_mem (f := fun p : Node × Val => (p.1.1.var, p.2)) hp)
  rw [nenv, Env.append, hsome, Option.some_or]

/-! ### The rounds -/

theorem rounds_fst (k : ℕ) (h : mp.map Prod.fst = xs) : (rounds env xs k mp).map Prod.fst = xs := by
  induction k generalizing mp with
  | zero => exact h
  | succ k ih => exact ih (by simp [Function.comp_def])

theorem analyzeGroup_fst : (analyzeGroup env xs).map Prod.fst = xs := rounds_fst _ (by simp [Function.comp_def])

theorem analyzeGroup_ids : (analyzeGroup env xs).map (fun p => p.1.ident) = xs.map Node.ident := by
  have hids : (analyzeGroup env xs).map (fun p => p.1.ident) = ((analyzeGroup env xs).map Prod.fst).map Node.ident := by
    simp
  rw [hids, analyzeGroup_fst]

/-! ### Groups in the order of their dependencies -/

structure Stratified (gs : List (Node ⊕ List Node)) : Prop where
  nodup : (ids gs).Nodup
  order : gs.Pairwise fun s s' => ∀ n ∈ fromScc s, ∀ m ∈ fromScc s', m.ident ∉ n.looked
  alone : ∀ n, .inl n ∈ gs → n.ident ∉ n.looked

theorem mem_decomposeDs (hscc : ∀ es, IsScc es (T.gscc es)) : n ∈ (decomposeDs T ns).flatMap fromScc ↔ n ∈ ns :=
  (Util.scc_perm hscc).mem_iff

theorem stratified_decomposeDs (hscc : ∀ es, IsScc es (T.gscc es)) (hnd : (ns.map Node.ident).Nodup)
    (hcase : ∀ n ∈ ns, ∀ m ∈ ns, m.ident ∉ caseVarsDef n.1) : Stratified (decomposeDs T ns) where
  nodup := ((Util.scc_perm hscc).map Node.ident).nodup_iff.2 hnd
  order := by
    refine (Util.scc_order hscc hnd).imp_of_mem fun {s s'} hs hs' hdep n hn m hm hlook => ?_
    rcases List.mem_append.1 hlook with hfree | hbound
    · exact hdep n hn m hm hfree
    · have hn' := (mem_decomposeDs hscc).1 (List.mem_flatMap.2 ⟨s, hs, hn⟩)
      exact hcase n hn' m ((mem_decomposeDs hscc).1 (List.mem_flatMap.2 ⟨s', hs', hm⟩)) hbound
  alone n h hlook := by
    rcases List.mem_append.1 hlook with hfree | hbound
    · exact Util.scc_alone hnd h hfree
    · have hn := (mem_decomposeDs hscc).1 (List.mem_flatMap.2 ⟨.inl n, h, List.mem_singleton.2 rfl⟩)
      exact hcase n hn n hn hbound

theorem mem_ids_decomposeDs (hscc : ∀ es, IsScc es (T.gscc es)) : x ∈ ids (decomposeDs T ns) ↔ x ∈ ns.map Node.ident :=
  ((Util.scc_perm hscc).map Node.ident).mem_iff

namespace Stratified

variable {s : Node ⊕ List Node}

theorem tail (h : Stratified (s :: rs)) : Stratified rs where
  nodup := (List.nodup_append.1 (List.map_append ▸ h.nodup : ((fromScc s).map Node.ident ++ ids rs).Nodup)).2.1
  order := h.order.of_cons
  alone n hn := h.alone n (List.mem_cons_of_mem _ hn)

theorem head_nodup (h : Stratified (s :: rs)) : ((fromScc s).map Node.ident).Nodup :=
  (List.nodup_append.1 (List.map_append ▸ h.nodup : ((fromScc s).map Node.ident ++ ids rs).Nodup)).1

theorem notMem_tail (h : Stratified (s :: rs)) (hn : n ∈ fromScc s) : n.ident ∉ ids rs := fun hrs =>
  (List.nodup_append.1 (List.map_append ▸ h.nodup : ((fromScc s).map Node.ident ++ ids rs).Nodup)).2.2 _
    (List.mem_map_of_mem hn) _ hrs rfl

/-- A group does not depend on the groups after it. -/
theorem dep_notMem (h : Stratified (s :: rs)) (hn : n ∈ fromScc s) (hx : x ∈ n.looked) : x ∉ ids rs := by
  intro hrs
  obtain ⟨m, hm, rfl⟩ := List.mem_map.1 hrs
  obtain ⟨s', hs', hm⟩ := List.mem_flatMap.1 hm
  exact (List.pairwise_cons.1 h.order).1 s' hs' n hn m hm hx

end Stratified

theorem ids_cons {s : Node ⊕ List Node} : ids (s :: rs) = (fromScc s).map Node.ident ++ ids rs := List.map_append

/-! ### The environment after the groups -/

/-- Other variables keep their values. -/
theorem groups_frame (h : x ∉ ids gs) : (analyzeGroups env gs zs).2 x = env x := by
  induction gs generalizing env zs with
  | nil => rfl
  | cons s rs ih =>
    rw [ids_cons, List.mem_append, not_or] at h
    cases s with
    | inl n =>
      rw [analyzeGroups, ih h.2, Env.insert_of_ne]
      simpa [fromScc, Node.ident] using h.1
    | inr xs =>
      rw [analyzeGroups, ih h.2, nenv_of_notMem]
      rw [analyzeGroup_ids]
      exact h.1

/-- A definition is annotated with what is left by `trimVal` of the value in the environment. -/
theorem groups_annotated {p : Def × Val} (hst : Stratified gs) (hp : p ∈ (analyzeGroups env gs zs).1) :
    p ∈ zs ∨ ∃ n ∈ gs.flatMap fromScc, n.1 = p.1 ∧ ∃ v, (analyzeGroups env gs zs).2 n.ident = some v ∧ p.2 = trimVal v := by
  induction gs generalizing env zs with
  | nil => exact .inl (List.mem_reverse.1 hp)
  | cons s rs ih =>
    cases s with
    | inl n =>
      rw [analyzeGroups] at hp ⊢
      rcases ih hst.tail hp with hzs | ⟨n', hn', hrest⟩
      · rcases List.mem_cons.1 hzs with rfl | hzs
        · refine .inr ⟨n, by simp [fromScc], rfl, n.2 env, ?_, rfl⟩
          rw [groups_frame (hst.notMem_tail (by simp [fromScc]))]
          exact Env.insert_self
        · exact .inl hzs
      · exact .inr ⟨n', List.mem_append_right _ hn', hrest⟩
    | inr xs =>
      rw [analyzeGroups] at hp ⊢
      rcases ih hst.tail hp with hzs | ⟨n', hn', hrest⟩
      · rcases List.mem_append.1 hzs with hmp | hzs
        · obtain ⟨q, hq, rfl⟩ := List.mem_map.1 hmp
          have hxs : q.1 ∈ xs := by
            have hmem := List.mem_map_of_mem (f := Prod.fst) hq
            rwa [analyzeGroup_fst] at hmem
          refine .inr ⟨q.1, List.mem_append_left _ hxs, rfl, q.2, ?_, rfl⟩
          rw [groups_frame (hst.notMem_tail hxs)]
          exact nenv_of_mem (analyzeGroup_ids ▸ hst.head_nodup) hq
        · exact .inl hzs
      · exact .inr ⟨n', List.mem_append_right _ hn', hrest⟩

/-- One more round of any recursive group would change none of its values. -/
def GroupsSettled : Env → List (Node ⊕ List Node) → Prop
  | env, .inl n :: rs => GroupsSettled (env.insert n.1.var (n.2 env)) rs
  | env, .inr xs :: rs =>
    (∀ p ∈ analyzeGroup env xs, p.1.2 (nenv env (analyzeGroup env xs)) = p.2) ∧
      GroupsSettled (nenv env (analyzeGroup env xs)) rs
  | _, [] => True

theorem groups_fixed (hst : Stratified gs) (hloc : ∀ n ∈ gs.flatMap fromScc, n.Local) (hset : GroupsSettled env gs)
    (hn : n ∈ gs.flatMap fromScc) : (analyzeGroups env gs zs).2 n.ident = some (n.2 (analyzeGroups env gs zs).2) := by
  induction gs generalizing env zs with
  | nil => cases hn
  | cons s rs ih =>
    have hrest : ∀ n ∈ rs.flatMap fromScc, n.Local := fun n hn => hloc n (List.mem_append_right _ hn)
    rcases List.mem_append.1 hn with hhead | htail
    · -- the later groups leave what the group depends on and what it binds
      have hlocal := hloc n hn
      cases s with
      | inl n' =>
        cases List.mem_singleton.1 hhead
        rw [analyzeGroups, groups_frame (hst.notMem_tail hhead)]
        have hval : n.2 env = n.2 (analyzeGroups (env.insert n.1.var (n.2 env)) rs ((n.1, trimVal (n.2 env)) :: zs)).2 := by
          refine hlocal _ _ fun x hx => ?_
          rw [groups_frame (hst.dep_notMem hhead hx), Env.insert_of_ne]
          rintro rfl
          exact hst.alone n List.mem_cons_self hx
        rw [← hval]
        exact Env.insert_self
      | inr xs =>
        rw [analyzeGroups, groups_frame (hst.notMem_tail hhead)]
        obtain ⟨p, hp, rfl⟩ : ∃ p ∈ analyzeGroup env xs, p.1 = n := by
          have hmem : n ∈ (analyzeGroup env xs).map Prod.fst := by rwa [analyzeGroup_fst]
          exact List.mem_map.1 hmem
        have hval : p.1.2 (nenv env (analyzeGroup env xs)) = p.1.2 (analyzeGroups (nenv env (analyzeGroup env xs)) rs
            ((analyzeGroup env xs).map (fun p => (p.1.1, trimVal p.2)) ++ zs)).2 :=
          hlocal _ _ fun x hx => (groups_frame (hst.dep_notMem hhead hx)).symm
        rw [nenv_of_mem (analyzeGroup_ids ▸ hst.head_nodup) hp, ← hset.1 p hp, hval]
    · cases s with
      | inl n' => exact ih hst.tail hrest hset htail
      | inr xs => exact ih hst.tail hrest hset.2 htail

theorem groups_isSome (h : (env x).isSome) : ((analyzeGroups env gs zs).2 x).isSome := by
  induction gs generalizing env zs with
  | nil => exact h
  | cons s rs ih =>
    cases s with
    | inl n =>
      refine ih ?_
      by_cases hx : x = n.1.var.tvrIdent
      · rw [hx, Env.insert_self]
        rfl
      · rwa [Env.insert_of_ne hx]
    | inr xs =>
      refine ih ?_
      rw [nenv, Env.append, Option.isSome_or, h, Bool.or_true]

theorem groups_append : (analyzeGroups env gs zs).2.append env = (analyzeGroups env gs zs).2 := by
  funext x
  rw [Env.append]
  cases h : (analyzeGroups env gs zs).2 x with
  | some v => rfl
  | none =>
    cases henv : env x with
    | none => rfl
    | some v =>
      have hsome : ((analyzeGroups env gs zs).2 x).isSome := groups_isSome (Option.isSome_of_mem henv)
      rw [h] at hsome
      cases hsome

/-! ### Environments that agree on what is looked at -/

theorem nenv_congr (hnd : (mp.map fun p => p.1.ident).Nodup) (h : x ∉ (mp.map fun p => p.1.ident) → env x = env' x) :
    nenv env mp x = nenv env' mp x := by
  by_cases hx : x ∈ mp.map fun p => p.1.ident
  · obtain ⟨p, hp, rfl⟩ := List.mem_map.1 hx
    rw [nenv_of_mem hnd hp, nenv_of_mem hnd hp]
  · rw [nenv_of_notMem hx, nenv_of_notMem hx, h hx]

theorem rounds_congr (hnd : (xs.map Node.ident).Nodup) (hloc : ∀ n ∈ xs, n.Local)
    (h : ∀ n ∈ xs, ∀ x ∈ n.looked, x ∉ xs.map Node.ident → env x = env' x) (k : ℕ)
    (hmp : mp.map Prod.fst = xs) : rounds env xs k mp = rounds env' xs k mp := by
  induction k generalizing mp with
  | zero => rfl
  | succ k ih =>
    have hids : (mp.map fun p => p.1.ident) = xs.map Node.ident := by rw [← hmp, List.map_map, Function.comp_def]
    have hround : xs.map (fun n => (n, n.2 (nenv env mp))) = xs.map fun n => (n, n.2 (nenv env' mp)) := by
      refine List.map_congr_left fun n hn => ?_
      rw [hloc n hn _ _ fun x hx => nenv_congr (hids ▸ hnd) fun hxs => h n hn x hx (hids ▸ hxs)]
    rw [rounds, rounds, hround]
    exact ih (by simp [Function.comp_def])

theorem groups_congr {zs' : List (Def × Val)} {s : Id → Prop} (hst : Stratified gs)
    (hloc : ∀ n ∈ gs.flatMap fromScc, n.Local) (hs : ∀ n ∈ gs.flatMap fromScc, ∀ x ∈ n.looked, s x)
    (h : ∀ x, s x → x ∉ ids gs → env x = env' x) (hx : s x) :
    (analyzeGroups env gs zs).2 x = (analyzeGroups env' gs zs').2 x := by
  induction gs generalizing env env' zs zs' with
  | nil => exact h x hx List.not_mem_nil
  | cons g rs ih =>
    have hrest := fun n hn => hloc n (List.mem_append_right _ hn)
    have hsrest := fun n hn => hs n (List.mem_append_right _ hn)
    have hout : ∀ n ∈ fromScc g, ∀ x ∈ n.looked, x ∉ (fromScc g).map Node.ident → env x = env' x := by
      intro n hn x hx hxg
      refine h x (hs n (List.mem_append_left _ hn) x hx) ?_
      rw [ids_cons, List.mem_append, not_or]
      exact ⟨hxg, hst.dep_notMem hn hx⟩
    cases g with
    | inl n =>
      have hn : n ∈ fromScc (.inl n : Node ⊕ List Node) := List.mem_singleton.2 rfl
      have hval : n.2 env = n.2 env' := by
        refine hloc n (List.mem_append_left _ hn) _ _ fun x hx => hout n hn x hx ?_
        intro hxg
        cases List.mem_singleton.1 hxg
        exact hst.alone n List.mem_cons_self hx
      refine ih hst.tail hrest hsrest fun y hy hyrs => ?_
      by_cases hyn : y = n.1.var.tvrIdent
      · rw [hyn, Env.insert_self, Env.insert_self, hval]
      · rw [Env.insert_of_ne hyn, Env.insert_of_ne hyn]
        refine h y hy ?_
        rw [ids_cons, List.mem_append, not_or]
        exact ⟨fun hmem => hyn (List.mem_singleton.1 hmem), hyrs⟩
    | inr xs =>
      have hgroup : analyzeGroup env xs = analyzeGroup env' xs :=
        rounds_congr hst.head_nodup (fun n hn => hloc n (List.mem_append_left _ hn)) hout _
          (by simp [Function.comp_def, fromScc])
      refine ih hst.tail hrest hsrest fun y hy hyrs => ?_
      rw [hgroup]
      refine nenv_congr (analyzeGroup_ids ▸ hst.head_nodup) fun hyxs => h y hy ?_
      rw [ids_cons, List.mem_append, not_or]
      exact ⟨analyzeGroup_ids ▸ hyxs, hyrs⟩

/-! ### The nodes of a let -/

theorem nodes_eq_map (ds : List Def) : nodes T ds = ds.map fun d => (d, cprAnalyze T d.rhs) := by
  induction ds with
  | nil => rfl
  | cons d ds ih =>
    cases d with
    | mk t e => rw [nodes, node, ih, List.map_cons, Def.rhs]

theorem nodes_idents (ds : List Def) : (nodes T ds).map Node.ident = ds.map fun d => d.var.tvrIdent := by
  rw [nodes_eq_map, List.map_map]
  rfl

theorem mem_caseVarsDefs {ds : List Def} {d : Def} (hd : d ∈ ds) (hx : x ∈ caseVarsDef d) : x ∈ caseVarsDefs ds := by
  induction ds with
  | nil => cases hd
  | cons d' ds ih =>
    rw [caseVarsDefs]
    rcases List.mem_cons.1 hd with rfl | hd
    · exact List.mem_append_left _ hx
    · exact List.mem_append_right _ (ih hd)

theorem mem_freeIdsDefs_of_def {ds : List Def} {d : Def} (hd : d ∈ ds) (hx : x ∈ freeIdsDef d) : x ∈ freeIdsDefs ds := by
  induction ds with
  | nil => cases hd
  | cons d' ds ih =>
    rw [freeIdsDefs]
    rcases List.mem_cons.1 hd with rfl | hd
    · exact List.mem_append_left _ hx
    · exact List.mem_append_right _ (ih hd)

theorem mem_of_looked {ds : List Def} (hn : n ∈ nodes T ds) (hx : x ∈ n.looked) : x ∈ freeIdsDefs ds ++ caseVarsDefs ds := by
  rw [nodes_eq_map] at hn
  obtain ⟨d, hd, rfl⟩ := List.mem_map.1 hn
  rcases List.mem_append.1 hx with hfree | hcase
  · exact List.mem_append_left _ (mem_freeIdsDefs_of_def hd hfree)
  · exact List.mem_append_right _ (mem_caseVarsDefs hd hcase)

theorem stratified_nodes {ds : List Def} (hscc : ∀ es, IsScc es (T.gscc es)) (hnd : (ds.map fun d => d.var.tvrIdent).Nodup)
    (hcase : ∀ d ∈ ds, d.var.tvrIdent ∉ caseVarsDefs ds) : Stratified (decomposeDs T (nodes T ds)) := by
  refine stratified_decomposeDs hscc (nodes_idents ds ▸ hnd) fun n hn m hm hbound => ?_
  rw [nodes_eq_map] at hn hm
  obtain ⟨d, hd, rfl⟩ := List.mem_map.1 hn
  obtain ⟨d', hd', rfl⟩ := List.mem_map.1 hm
  exact hcase d' hd' (mem_caseVarsDefs hd hbound)

/-! ### What is looked at -/

theorem mem_usedOf {xs : List TVr} (hx : x ∈ freeIds e) (hxs : x ∈ xs.map TVr.tvrIdent) : x ∈ usedOf xs e :=
  List.mem_filter.2 ⟨hxs, by simpa using hx⟩

theorem analyze_lit {n : Name} : cprAnalyze T (.eLit n (e :: es) ty) env = .tup n (analyzeArgs T (e :: es) env) := by
  rw [cprAnalyze]
  simp

theorem analyze_pi {ty e : E} : cprAnalyze T (.ePi (.mk x ty) e) env = .tup tc_Arrow [cprAnalyze T ty env, cprAnalyze T e env] := by
  rw [cprAnalyze, analyzeType]

mutual

theorem analyze_congr (hscc : ∀ es, IsScc es (T.gscc es)) : ∀ (e : E) (env env' : Env), Hygienic e →
    (∀ x ∈ freeIds e ++ caseVars e, env x = env' x) → cprAnalyze T e env = cprAnalyze T e env'
  | .eVar v, env, env', _, h => by
    rw [cprAnalyze, cprAnalyze, h _ (by simp [freeIds])]
  | .eLetRec ds e, env, env', hy, h => by
    rw [Hygienic] at hy
    have hst : Stratified (decomposeDs T (nodes T ds)) :=
      stratified_nodes hscc hy.1.1 fun d hd hx => hy.1.2 d hd (List.mem_append_left _ hx)
    have hloc : ∀ n ∈ (decomposeDs T (nodes T ds)).flatMap fromScc, n.Local := fun n hn =>
      nodes_local hscc ds hy.2.1 n ((mem_decomposeDs hscc).1 hn)
    -- outside of the let the two agree on all that its parts look at
    have hlook : ∀ x ∈ freeIdsDefs ds ++ caseVarsDefs ds ++ (freeIds e ++ caseVars e),
        x ∉ ids (decomposeDs T (nodes T ds)) → env x = env' x := by
      intro x hx hxds
      rw [mem_ids_decomposeDs hscc, nodes_idents] at hxds
      have hxds' : decide (x ∉ ds.map fun d => d.var.tvrIdent) = true := by simpa using hxds
      refine h x ?_
      rw [freeIds, caseVars]
      rcases List.mem_append.1 hx with hdefs | hbody
      · rcases List.mem_append.1 hdefs with hfree | hcase
        · exact List.mem_append_left _ (List.mem_filter.2 ⟨List.mem_append_left _ hfree, hxds'⟩)
        · exact List.mem_append_right _ (List.mem_append_left _ hcase)
      · rcases List.mem_append.1 hbody with hfree | hcase
        · exact List.mem_append_left _ (List.mem_filter.2 ⟨List.mem_append_right _ hfree, hxds'⟩)
        · exact List.mem_append_right _ (List.mem_append_right _ hcase)
    rw [cprAnalyze, cprAnalyze, groups_append, groups_append]
    refine analyze_congr hscc e _ _ hy.2.2 fun x hx => ?_
    refine groups_congr (s := (· ∈ freeIdsDefs ds ++ caseVarsDefs ds ++ (freeIds e ++ caseVars e))) hst hloc
      (fun n hn y hy => ?_) hlook (List.mem_append_right _ hx)
    exact List.mem_append_left _ (mem_of_looked ((mem_decomposeDs hscc).1 hn) hy)
  | .eLam t e, env, env', hy, h => by
    rw [Hygienic] at hy
    rw [cprAnalyze, cprAnalyze]
    refine congrArg Val.fun (analyze_congr hscc e _ _ hy.2 fun x hx => ?_)
    by_cases hxt : x = t.tvrIdent
    · rw [hxt, Env.insert_self, Env.insert_self]
    · rw [Env.insert_of_ne hxt, Env.insert_of_ne hxt]
      refine h x ?_
      rw [freeIds, caseVars]
      rcases List.mem_append.1 hx with hfree | hcase
      · exact List.mem_append_left _ (List.mem_filter.2 ⟨List.mem_append_left _ hfree, by simpa using hxt⟩)
      · exact List.mem_append_right _ hcase
  | .eCase s ty t as d, env, env', hy, h => by
    rw [Hygienic] at hy
    rw [freeIds, caseVars] at h
    have hout : ∀ x, x ∈ freeIdsDefault d ++ freeIdsAlts as → x ≠ t.tvrIdent → env x = env' x := fun x hx hxt =>
      h x (List.mem_append_left _ (List.mem_append_right _ (List.mem_filter.2 ⟨hx, by simpa using hxt⟩)))
    rw [cprAnalyze, cprAnalyze,
      alts_congr hscc t as env env' hy.1 (fun x hx => hout x (List.mem_append_right _ hx)) fun x hx =>
        h x (List.mem_append_right _ (List.mem_append_left _ hx)),
      default_congr hscc t d env env' hy.2 (fun x hx => hout x (List.mem_append_left _ hx)) fun x hx =>
        h x (List.mem_append_right _ (List.mem_append_right _ hx))]
  | .eAp f a, env, env', hy, h => by
    rw [freeIds, caseVars] at h
    rw [cprAnalyze, cprAnalyze, analyze_congr hscc f env env' hy fun x hx => h x ?_]
    rcases List.mem_append.1 hx with hfree | hcase
    · exact List.mem_append_left _ (List.mem_append_left _ hfree)
    · exact List.mem_append_right _ hcase
  | .eLitInt n t, env, env', _, _ => by
    rw [cprAnalyze, cprAnalyze]
  | .eLit n [] t, env, env', _, _ => by
    rw [cprAnalyze, cprAnalyze]
  | .eLit n (e :: es) t, env, env', hy, h => by
    rw [freeIds, caseVars] at h
    rw [analyze_lit, analyze_lit, args_congr hscc (e :: es) env env' hy fun x hx => h x ?_]
    rcases List.mem_append.1 hx with hfree | hcase
    · exact List.mem_append_left _ (List.mem_append_right _ hfree)
    · exact List.mem_append_right _ hcase
  | .ePi (.mk x ty) e, env, env', hy, h => by
    rw [freeIds, freeIdsVar, caseVars, caseVarsType] at h
    rw [Hygienic, HygienicType] at hy
    rw [analyze_pi, analyze_pi, analyze_congr hscc ty env env' hy.1 fun y hx => h y ?_,
      analyze_congr hscc e env env' hy.2 fun y hx => h y ?_]
    · rcases List.mem_append.1 hx with hfree | hcase
      · by_cases hyx : y = x
        · exact List.mem_append_right _ (List.mem_append_left _ (List.mem_append_left _
            (mem_usedOf hfree (List.mem_singleton.2 hyx))))
        · exact List.mem_append_left _ (List.mem_filter.2 ⟨List.mem_append_left _ hfree, by simp [TVr.tvrIdent, hyx]⟩)
      · exact List.mem_append_right _ (List.mem_append_left _ (List.mem_append_right _ hcase))
    · rcases List.mem_append.1 hx with hfree | hcase
      · by_cases hyx : y = x
        · exact List.mem_append_right _ (List.mem_append_right _ (List.mem_append_left _
            (mem_usedOf hfree (List.mem_singleton.2 hyx))))
        · exact List.mem_append_left _ (List.mem_filter.2 ⟨List.mem_append_right _ hfree, by simp [TVr.tvrIdent, hyx]⟩)
      · exact List.mem_append_right _ (List.mem_append_right _ (List.mem_append_right _ hcase))
  | .ePrim p es t, env, env', _, _ => by
    rw [cprAnalyze, cprAnalyze]
  | .eError s t, env, env', _, _ => by
    rw [cprAnalyze, cprAnalyze]
  | .unknown, env, env', _, _ => by
    rw [cprAnalyze, cprAnalyze] <;> simp
  | .eSort s, env, env', _, _ => by
    rw [cprAnalyze, cprAnalyze] <;> simp

theorem args_congr (hscc : ∀ es, IsScc es (T.gscc es)) : ∀ (es : List E) (env env' : Env), HygienicArgs es →
    (∀ x ∈ freeIdsArgs es ++ caseVarsArgs es, env x = env' x) → analyzeArgs T es env = analyzeArgs T es env'
  | [], _, _, _, _ => by
    rw [analyzeArgs, analyzeArgs]
  | e :: es, env, env', hy, h => by
    rw [freeIdsArgs, caseVarsArgs] at h
    rw [HygienicArgs] at hy
    rw [analyzeArgs, analyzeArgs, analyze_congr hscc e env env' hy.1 fun x hx => h x ?_,
      args_congr hscc es env env' hy.2 fun x hx => h x ?_]
    · rcases List.mem_append.1 hx with hfree | hcase
      · exact List.mem_append_left _ (List.mem_append_right _ hfree)
      · exact List.mem_append_right _ (List.mem_append_right _ hcase)
    · rcases List.mem_append.1 hx with hfree | hcase
      · exact List.mem_append_left _ (List.mem_append_left _ hfree)
      · exact List.mem_append_right _ (List.mem_append_left _ hcase)

theorem alts_congr (hscc : ∀ es, IsScc es (T.gscc es)) (t : TVr) : ∀ (as : List Alt) (env env' : Env), HygienicAlts as →
    (∀ x ∈ freeIdsAlts as, x ≠ t.tvrIdent → env x = env' x) → (∀ x ∈ caseVarsAlts t as, env x = env' x) →
    analyzeAlts T as env = analyzeAlts T as env'
  | [], _, _, _, _, _ => by
    rw [analyzeAlts, analyzeAlts]
  | a :: as, env, env', hy, h, hcase => by
    rw [HygienicAlts] at hy
    rw [freeIdsAlts] at h
    rw [caseVarsAlts] at hcase
    rw [analyzeAlts, analyzeAlts,
      alt_congr hscc t a env env' hy.1 (fun x hx => h x (List.mem_append_left _ hx)) fun x hx =>
        hcase x (List.mem_append_left _ hx),
      alts_congr hscc t as env env' hy.2 (fun x hx => h x (List.mem_append_right _ hx)) fun x hx =>
        hcase x (List.mem_append_right _ hx)]

theorem alt_congr (hscc : ∀ es, IsScc es (T.gscc es)) (t : TVr) : ∀ (a : Alt) (env env' : Env), HygienicAlt a →
    (∀ x ∈ freeIdsAlt a, x ≠ t.tvrIdent → env x = env' x) → (∀ x ∈ caseVarsAlt t a, env x = env' x) →
    analyzeAlt T a env = analyzeAlt T a env'
  | .litInt n ty e, env, env', hy, h, hcase => by
    rw [freeIdsAlt] at h
    rw [caseVarsAlt] at hcase
    rw [analyzeAlt, analyzeAlt]
    refine analyze_congr hscc e env env' hy fun x hx => ?_
    rcases List.mem_append.1 hx with hfree | hbound
    · by_cases hxt : x = t.tvrIdent
      · exact hcase x (List.mem_append_left _ (mem_usedOf hfree (List.mem_singleton.2 hxt)))
      · exact h x (List.mem_append_right _ hfree) hxt
    · exact hcase x (List.mem_append_right _ hbound)
  | .litCons c xs ty e, env, env', hy, h, hcase => by
    rw [freeIdsAlt] at h
    rw [caseVarsAlt] at hcase
    rw [analyzeAlt, analyzeAlt]
    refine analyze_congr hscc e env env' hy fun x hx => ?_
    rcases List.mem_append.1 hx with hfree | hbound
    · by_cases hxt : x ∈ (t :: xs).map TVr.tvrIdent
      · exact hcase x (List.mem_append_left _ (mem_usedOf hfree hxt))
      · rw [List.map_cons, List.mem_cons, not_or] at hxt
        refine h x (List.mem_append_left _ (List.mem_append_right _ (List.mem_filter.2 ⟨hfree, ?_⟩))) hxt.1
        simpa using hxt.2
    · exact hcase x (List.mem_append_right _ hbound)

theorem default_congr (hscc : ∀ es, IsScc es (T.gscc es)) (t : TVr) : ∀ (d : Option E) (env env' : Env),
    HygienicDefault d → (∀ x ∈ freeIdsDefault d, x ≠ t.tvrIdent → env x = env' x) →
    (∀ x ∈ caseVarsDefault t d, env x = env' x) → analyzeDefault T d env = analyzeDefault T d env'
  | none, _, _, _, _, _ => by
    rw [analyzeDefault, analyzeDefault]
  | some e, env, env', hy, h, hcase => by
    rw [freeIdsDefault] at h
    rw [caseVarsDefault] at hcase
    rw [analyzeDefault, analyzeDefault]
    refine analyze_congr hscc e env env' hy fun x hx => ?_
    rcases List.mem_append.1 hx with hfree | hbound
    · by_cases hxt : x = t.tvrIdent
      · exact hcase x (List.mem_append_left _ (mem_usedOf hfree (List.mem_singleton.2 hxt)))
      · exact h x hfree hxt
    · exact hcase x (List.mem_append_right _ hbound)

theorem nodes_local (hscc : ∀ es, IsScc es (T.gscc es)) : ∀ (ds : List Def), HygienicDefs ds → ∀ n ∈ nodes T ds, n.Local
  | [], _, _, hn => by cases hn
  | .mk t e :: ds, hy, n, hn => by
    rw [HygienicDefs] at hy
    rw [nodes] at hn
    rcases List.mem_cons.1 hn with rfl | hn
    · intro env env' h
      refine analyze_congr hscc e env env' hy.1 fun x hx => h x ?_
      rw [node, Node.looked, bindingFreeVars, freeIdsDef]
      rcases List.mem_append.1 hx with hfree | hcase
      · exact List.mem_append_left _ (List.mem_append_right _ hfree)
      · exact List.mem_append_right _ hcase
    · exact nodes_local hscc ds hy.2 n hn

end

end Jhc.E.Cpr
