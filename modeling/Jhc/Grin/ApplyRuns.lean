import Jhc.Grin.Applied
import Jhc.Grin.NodeTags

/-!
# Runs of the program with apply functions (Grin/EvalInline.hs:97-162)

An apply function called with a partial application takes the alternative of its tag,
which makes the node or the call that the application stands for. A run of the program
has one of the resulting program that only reads the applied nodes again.
-/

namespace Jhc.Grin
open Jhc.Lib.Memory

def Prog.setGrin (P : Prog) (grin : GrinProgram) : Prog :=
  { P with grinFunctions := grin.grinFunctions, grinTypeEnv := grin.grinTypeEnv }

/-! ### Operations other than applications -/

section
variable {P : Prog} {g : GrinProgram} {ρ : Frame} {e : Exp} {xs : List Action} {ws : List Value}

theorem vals_setGrin {vs : List Val} (h : Vals P ρ vs xs ws) : Vals (P.setGrin g) ρ vs xs ws := by
  induction h with
  | nil => exact .nil
  | lit _ ih => exact .lit ih
  | unit _ ih => exact .unit ih
  | unknown _ ih => exact .unknown ih
  | item _ ih => exact .item ih
  | var hx _ ih => exact .var hx ih
  | const _ ih => exact .const ih
  | index _ ih => exact .index ih
  | node hlen _ ih => exact .node hlen ih
  | prim _ hp _ ihas ih => exact .prim ihas hp ih

/-- What the other operations do does not depend on the functions. -/
theorem does_setGrin (h : Does P ρ e xs ws) (happ : ∀ ts vs, e ≠ .baseOp (.apply ts) vs) :
    Does (P.setGrin g) ρ e xs ws ∧ e.blocks = [] ∧ e.isApply = false := by
  cases h with
  | ret h => exact ⟨.ret (vals_setGrin h), rfl, rfl⟩
  | @pass op v xs w hop h =>
    refine ⟨.pass hop (vals_setGrin h), rfl, ?_⟩
    cases op with
    | apply ts => cases hop
    | _ => rfl
  | storeNode h => exact ⟨.storeNode (vals_setGrin h), rfl, rfl⟩
  | redirect h => exact ⟨.redirect (vals_setGrin h), rfl, rfl⟩
  | overwrite hcaf h => exact ⟨.overwrite hcaf (vals_setGrin h), rfl, rfl⟩
  | overwriteCaf hcaf h => exact ⟨.overwriteCaf hcaf (vals_setGrin h), rfl, rfl⟩
  | peekVal h hget => exact ⟨.peekVal (vals_setGrin h) hget, rfl, rfl⟩
  | pokeVal h hn => exact ⟨.pokeVal (vals_setGrin h) hn, rfl, rfl⟩
  | consume h => exact ⟨.consume (vals_setGrin h), rfl, rfl⟩
  | gcTouch h => exact ⟨.gcTouch (vals_setGrin h), rfl, rfl⟩
  | gcPush h hlen => exact ⟨.gcPush (vals_setGrin h) hlen, rfl, rfl⟩
  | newRegister h => exact ⟨.newRegister (vals_setGrin h), rfl, rfl⟩
  | readRegister h => exact ⟨.readRegister (vals_setGrin h), rfl, rfl⟩
  | writeRegister h => exact ⟨.writeRegister (vals_setGrin h), rfl, rfl⟩
  | evalNode h ht => exact ⟨.evalNode (vals_setGrin h) ht, rfl, rfl⟩
  | evalInd h => exact ⟨.evalInd (vals_setGrin h), rfl, rfl⟩
  | applyPart h ht ht' hty => exact absurd rfl (happ _ _)
  | alloc h => exact ⟨.alloc (vals_setGrin h), rfl, rfl⟩
  | primCheap hp h hop => exact ⟨.primCheap hp (vals_setGrin h) hop, rfl, rfl⟩
  | prim hp h => exact ⟨.prim hp (vals_setGrin h), rfl, rfl⟩

theorem enters_setGrin {f : Atom} {upd : Option ℕ} (h : Enters P ρ e xs f ws upd)
    (happ : ∀ ts vs, e ≠ .baseOp (.apply ts) vs) :
    Enters (P.setGrin g) ρ e xs f ws upd ∧ e.blocks = [] ∧ e.isApply = false := by
  cases h with
  | app h => exact ⟨.app (vals_setGrin h), rfl, rfl⟩
  | call h => exact ⟨.call (vals_setGrin h), rfl, rfl⟩
  | eval h ht hf => exact ⟨.eval (vals_setGrin h) ht hf, rfl, rfl⟩
  | apply h ht hty => exact absurd rfl (happ _ _)

end

/-! ### The fields of a node -/

section
variable {P : Prog} {ρ : Frame} {xs : List Action} {fs ws : List Value} {ts : List Ty}

theorem var_succ (x : ℤ) (i : ℕ) : x + (i + 1 : ℕ) = x + 1 + i := by omega

theorem var_zero (x : ℤ) : x + (0 : ℕ) = x := by omega

/-- What variables in order are bound to. -/
def fieldBinds (x : Var) (ws : List Value) : Bindings := ws.mapIdx fun i w => (x + i, w)

theorem fieldBinds_cons (x : Var) (w : Value) (ws : List Value) :
    fieldBinds x (w :: ws) = (x, w) :: fieldBinds (x + 1) ws := by
  simp only [fieldBinds, List.mapIdx_cons, var_zero, var_succ]

def fieldVars (x : Var) (ts : List Ty) : List Val := ts.mapIdx fun i ty => .var (x + i) ty

theorem fieldVars_cons (x : Var) (t : Ty) (ts : List Ty) :
    fieldVars x (t :: ts) = .var x t :: fieldVars (x + 1) ts := by
  simp only [fieldVars, List.mapIdx_cons, var_zero, var_succ]

theorem binds_fields {x : Var} (h : ts.length = fs.length) : Binds (fieldVars x ts) fs [] (fieldBinds x fs) := by
  induction fs generalizing x ts with
  | nil =>
    rw [List.length_eq_zero_iff.1 h]
    exact .nil
  | cons w fs ih =>
    cases ts with
    | nil => cases h
    | cons t ts =>
      rw [fieldVars_cons, fieldBinds_cons]
      exact .var (ih (Nat.succ.inj h))

theorem extend_fields_below {x y : Var} (h : y < x) : ρ.extend (fieldBinds x fs) y = ρ y := by
  refine extend_other fun hmem => ?_
  obtain ⟨⟨z, w⟩, hz, rfl⟩ := List.mem_map.1 hmem
  obtain ⟨i, _, hi⟩ := List.mem_mapIdx.1 hz
  have hxz : x + (i : ℤ) = z := congrArg Prod.fst hi
  have hle : x ≤ z := hxz ▸ Int.le_add_of_nonneg_right (Int.natCast_nonneg i)
  exact absurd h (Int.not_lt.2 hle)

theorem vals_fields {x : Var} {vs : List Val} (hlen : ts.length = fs.length)
    (h : Vals P (ρ.extend (fieldBinds x fs)) vs xs ws) :
    Vals P (ρ.extend (fieldBinds x fs)) (fieldVars x ts ++ vs) xs (fs ++ ws) := by
  induction fs generalizing x ts ρ with
  | nil =>
    rw [List.length_eq_zero_iff.1 hlen]
    exact h
  | cons w fs ih =>
    cases ts with
    | nil => cases hlen
    | cons t ts =>
      rw [fieldVars_cons]
      rw [fieldBinds_cons] at h ⊢
      refine .var ?_ (ih (Nat.succ.inj hlen) h)
      refine (extend_fields_below ?_).trans (Function.update_self _ _ _)
      exact Int.lt_add_one_iff.2 (Int.le_refl x)

end

/-! ### The alternative of a tag -/

section
variable {te : TyEnv} {t f : Tag} {n : ℕ} {argType : Ty} {l : Lam} {tyty : TyTy}

/-- The argument of an apply function as its alternatives pass it on. -/
def argVars (argType : Ty) : List Val := if argType = .tyUnit then [] else [Val.var v2 argType]

theorem applyAlt_pattern (h : applyAlt argType te t = some l) (htyty : findTyTy te t = some tyty) :
    l.bind = [.nodeC t (fieldVars v3 tyty.tySlots)] := by
  unfold applyAlt at h
  simp only [findArgsType, htyty, Option.map_some, Option.bind_eq_bind, Option.bind_some] at h
  obtain ⟨⟨n, fn⟩, -, h⟩ := Option.bind_eq_some_iff.1 h
  dsimp only at h
  by_cases hone : n = 1
  · rw [if_pos hone] at h
    obtain ⟨r, -, h⟩ := Option.bind_eq_some_iff.1 h
    cases h
    rfl
  · rw [if_neg hone] at h
    by_cases hmany : n > 1
    · rw [if_pos hmany] at h
      obtain ⟨t', -, h⟩ := Option.bind_eq_some_iff.1 h
      cases h
      rfl
    · rw [if_neg hmany] at h
      cases h

theorem applyAlt_call (h : applyAlt argType te t = some l) (htyty : findTyTy te t = some tyty)
    (ht : tagUnfunction t = some (1, f)) :
    ∃ ty, l.exp = .app f (fieldVars v3 tyty.tySlots ++ argVars argType) ty := by
  unfold applyAlt at h
  simp only [findArgsType, htyty, ht, Option.map_some, Option.bind_eq_bind, Option.bind_some, if_true] at h
  obtain ⟨⟨as, ty⟩, -, h⟩ := Option.bind_eq_some_iff.1 h
  cases h
  exact ⟨ty, rfl⟩

theorem applyAlt_store (h : applyAlt argType te t = some l) (htyty : findTyTy te t = some tyty)
    (ht : tagUnfunction t = some (n + 2, f)) {t' : Tag} (ht' : partialTag f (n + 1) = some t') :
    l.exp = .baseOp (.storeNode true) [.nodeC t' (fieldVars v3 tyty.tySlots ++ argVars argType)] := by
  unfold applyAlt at h
  have hne : n + 2 ≠ 1 := by omega
  have hlt : n + 2 > 1 := by omega
  have hpred : n + 2 - 1 = n + 1 := by omega
  simp only [findArgsType, htyty, ht, ht', hne, hlt, hpred, Option.map_some, Option.bind_eq_bind, Option.bind_some,
    if_true, if_false] at h
  cases h
  rfl

/-- The tag's own alternative is taken. -/
theorem selects_alt {tags : List Tag} {cs : List Lam} {a : ℕ} {fs : List Value}
    (hcs : tags.mapM (applyAlt argType te) = some cs) (htags : ∀ s ∈ tags, ∃ r, findTyTy te s = some r)
    (ht : t ∈ tags) (hsusp : tagIsSuspFunction t = false)
    (htyty : findTyTy te t = some tyty) (hlen : tyty.tySlots.length = fs.length) :
    ∃ k l, Selects (.ptr a 0) cs (List.replicate (k + 1) (.read a (.node t fs))) l (fieldBinds v3 fs) ∧
      applyAlt argType te t = some l := by
  induction tags generalizing cs with
  | nil => cases ht
  | cons s tags ih =>
    rw [List.mapM_cons] at hcs
    simp only [Option.bind_eq_bind, Option.bind_eq_some_iff, Option.pure_def, Option.some.injEq] at hcs
    obtain ⟨l, hl, cs, hcs, rfl⟩ := hcs
    by_cases hst : s = t
    · subst hst
      refine ⟨0, l, .here ?_, hl⟩
      rw [applyAlt_pattern hl htyty]
      have hfields : (fieldVars v3 tyty.tySlots).length = fs.length := by rw [fieldVars, List.length_mapIdx, hlen]
      have hbinds := binds_fields (x := v3) hlen
      rw [← List.append_nil (fieldVars v3 _)] at hbinds
      rw [← List.append_nil fs] at hbinds
      have hnode := Binds.node (a := a) hsusp hfields hbinds
      rw [List.append_nil] at hnode
      exact hnode
    · have hmem : t ∈ tags := (List.mem_cons.1 ht).resolve_left fun h => hst h.symm
      obtain ⟨k, l', hsel, hl'⟩ := ih hcs (fun s hs => htags s (List.mem_cons_of_mem _ hs)) hmem
      obtain ⟨r, hr⟩ := htags s List.mem_cons_self
      have hskip : Skips l.bind (.ptr a 0) [.read a (.node t fs)] := by
        rw [applyAlt_pattern hl hr]
        exact .node hsusp fun h => hst h.symm
      exact ⟨k + 1, l', .skip hskip hsel, hl'⟩

end

/-! ### The apply functions -/

section
variable {te : TyEnv} {t : Tag} {mt : Option Ty} {l : Lam} {tyty r : TyTy} {w : Atom} {tags : List Tag}
variable {ts : List Ty} {fs ws : List Value} {a : ℕ} {ρ : Frame}

/-- The parameter of an apply function is the type of the argument or has no values. -/
theorem argVars_eq (h : mt ≠ some .tyUnit) : argVars (mt.getD .tyUnit) = mt.toList.map (Val.var v2) := by
  unfold argVars
  cases mt with
  | none => rfl
  | some t =>
    have hne : t ≠ .tyUnit := fun heq => h (congrArg some heq)
    rw [Option.getD_some, if_neg hne]
    rfl

theorem tagGood_of_entry (htyty : findTyTy te t = some tyty) (hthunk : tyty.tyThunk = .tyPApp mt w)
    (hr : findTyTy te w = some r) : tagGood (mt.getD .tyUnit) r.tyReturn te t = true := by
  unfold tagGood
  simp only [htyty, hthunk, findArgsType, hr, Option.map_some]
  cases mt <;> simp

/-- The binding of the parameters. -/
def applyBinds (a : ℕ) (ws : List Value) : Bindings := (v1, .ptr a 0) :: ws.map fun w => (v2, w)

theorem binds_apply (hmt : mt ≠ some .tyUnit) (hlen : ws.length = mt.toList.length) :
    Binds (.var v1 .tyNode :: argVars (mt.getD .tyUnit)) (.ptr a 0 :: ws) [] (applyBinds a ws) := by
  rw [argVars_eq hmt]
  cases mt with
  | none =>
    rw [List.length_eq_zero_iff.1 hlen]
    exact .var .nil
  | some t =>
    obtain ⟨w, rfl⟩ := List.length_eq_one_iff.1 hlen
    exact .var (.var .nil)

theorem vals_args {P : Prog} (hmt : mt ≠ some .tyUnit) (hlen : ws.length = mt.toList.length) :
    Vals P ((ρ.extend (applyBinds a ws)).extend (fieldBinds v3 fs)) (argVars (mt.getD .tyUnit)) [] ws := by
  rw [argVars_eq hmt]
  cases mt with
  | none =>
    rw [List.length_eq_zero_iff.1 hlen]
    exact .nil
  | some t =>
    obtain ⟨w, rfl⟩ := List.length_eq_one_iff.1 hlen
    have hbelow : v2 < v3 := by decide
    refine .var ((extend_fields_below hbelow).trans ?_) .nil
    exact Function.update_self v2 (some w) (Function.update ρ v1 (some (.ptr a 0)))

theorem createApply_spec {argType : Ty} (h : createApply argType ts te tags = some l) :
    ∃ cs, ((tags.mergeSort fun a b => decide (a ≤ b)).filter (tagGood argType ts te)).mapM (applyAlt argType te) =
        some cs ∧
      l.bind = .var v1 .tyNode :: argVars argType ∧ (cs ≠ [] → l.exp = .case (.var v1 .tyNode) cs) := by
  unfold createApply at h
  obtain ⟨cs, hcs, h⟩ := Option.bind_eq_some_iff.1 h
  refine ⟨cs, hcs, ?_⟩
  have hps : (if argType = .tyUnit then [Val.var v1 .tyNode] else [.var v1 .tyNode, .var v2 argType]) =
      .var v1 .tyNode :: argVars argType := by
    unfold argVars
    split <;> rfl
  simp only [hps] at h
  cases cs with
  | nil =>
    cases h
    exact ⟨rfl, fun hne => absurd rfl hne⟩
  | cons c cs =>
    cases h
    exact ⟨rfl, fun _ => rfl⟩

theorem tyty_of_tagGood {argType : Ty} (h : tagGood argType ts te t = true) : ∃ r, findTyTy te t = some r := by
  unfold tagGood at h
  split at h
  · next r hr => exact ⟨r, hr⟩
  · cases h

/-- An apply function that is called with a partial application runs the alternative of its tag. -/
theorem createApply_runs {P : Prog} (h : createApply (mt.getD .tyUnit) r.tyReturn te tags = some l) (ht : t ∈ tags)
    (hsusp : tagIsSuspFunction t = false) (htyty : findTyTy te t = some tyty)
    (hthunk : tyty.tyThunk = .tyPApp mt w) (hr : findTyTy te w = some r) (hmt : mt ≠ some .tyUnit)
    (hfs : tyty.tySlots.length = fs.length) (hws : ws.length = mt.toList.length) :
    ∃ k alt, applyAlt (mt.getD .tyUnit) te t = some alt ∧
      Binds l.bind (.ptr a 0 :: ws) [] (applyBinds a ws) ∧
      Vals P ((ρ.extend (applyBinds a ws)).extend (fieldBinds v3 fs))
        (fieldVars v3 tyty.tySlots ++ argVars (mt.getD .tyUnit)) [] (fs ++ ws) ∧
      ∀ φ zs out, Run P φ ((ρ.extend (applyBinds a ws)).extend (fieldBinds v3 fs)) alt.exp zs out →
        Run P φ (ρ.extend (applyBinds a ws)) l.exp (List.replicate (k + 1) (.read a (.node t fs)) ++ zs) out := by
  obtain ⟨cs, hcs, hbind, hexp⟩ := createApply_spec h
  have hmem : t ∈ (tags.mergeSort fun a b => decide (a ≤ b)).filter (tagGood (mt.getD .tyUnit) r.tyReturn te) := by
    rw [List.mem_filter, List.mem_mergeSort]
    exact ⟨ht, tagGood_of_entry htyty hthunk hr⟩
  have hentries : ∀ s ∈ (tags.mergeSort fun a b => decide (a ≤ b)).filter (tagGood (mt.getD .tyUnit) r.tyReturn te),
      ∃ r, findTyTy te s = some r := fun s hs => tyty_of_tagGood (List.mem_filter.1 hs).2
  obtain ⟨k, alt, hsel, halt⟩ := selects_alt (a := a) hcs hentries hmem hsusp htyty hfs
  have hne : cs ≠ [] := by
    rintro rfl
    cases hsel
  refine ⟨k, alt, halt, ?_, vals_fields hfs (vals_args hmt hws), fun φ zs out hrun => ?_⟩
  · rw [hbind]
    exact binds_apply hmt hws
  · rw [hexp hne]
    have hv1 : Frame.extend (Function.update ρ v1 (some (.ptr a 0))) (ws.map fun w => (v2, w)) v1 =
        some (.ptr a 0) := by
      refine (extend_other fun hmem => ?_).trans (Function.update_self _ _ _)
      rw [List.map_map, List.mem_map] at hmem
      obtain ⟨u, -, hu⟩ := hmem
      cases hu
    exact .case (.var hv1 .nil) hsel hrun

end

/-! ### Local functions -/

def FEnvApplied (M : ApplyKey → Atom → Prop) : FEnv → FEnv → Prop :=
  List.Forall₂ fun g g' => g'.2 = g.2 ∧ List.Forall₂ (DefApplied M) g.1 g'.1

section
variable {M : ApplyKey → Atom → Prop} {φ φ' : FEnv} {f : Atom}

theorem find_defs {ds ds' : List FuncDef} (h : List.Forall₂ (DefApplied M) ds ds') :
    Option.Rel (DefApplied M) (ds.find? (·.name = f)) (ds'.find? (·.name = f)) := by
  induction h with
  | nil => exact .none
  | @cons d d' ds ds' hd _ ih =>
    by_cases hf : d.name = f
    · rw [List.find?_cons_of_pos (by simpa using hf), List.find?_cons_of_pos (by simpa [hd.name] using hf)]
      exact .some hd
    · rw [List.find?_cons_of_neg (by simpa using hf), List.find?_cons_of_neg (by simpa [hd.name] using hf)]
      exact ih

theorem find_applied (hφ : FEnvApplied M φ φ') : (φ.find f = none ∧ φ'.find f = none) ∨
    ∃ d d' ρ ψ ψ', φ.find f = some (d, ρ, ψ) ∧ φ'.find f = some (d', ρ, ψ') ∧ d.name = f ∧ DefApplied M d d' ∧
      FEnvApplied M ψ ψ' := by
  induction hφ with
  | nil => exact .inl ⟨rfl, rfl⟩
  | @cons g g' φ φ' hg hφ ih =>
    obtain ⟨ds, ρ⟩ := g
    obtain ⟨ds', ρ'⟩ := g'
    obtain ⟨hρ, hds⟩ := hg
    simp only at hρ hds
    subst hρ
    have hfind := find_defs (f := f) hds
    simp only [FEnv.find]
    cases hd : ds.find? (·.name = f) with
    | none =>
      rw [hd] at hfind
      cases hd' : ds'.find? (·.name = f) with
      | none => exact ih
      | some d' =>
        rw [hd'] at hfind
        cases hfind
    | some d =>
      rw [hd] at hfind
      cases hd' : ds'.find? (·.name = f) with
      | none =>
        rw [hd'] at hfind
        cases hfind
      | some d' =>
        rw [hd'] at hfind
        cases hfind with
        | some hdd =>
          have hname : d.name = f := by simpa using List.find?_some hd
          exact .inr ⟨d, d', ρ', _, _, rfl, rfl, hname, hdd, .cons ⟨rfl, hds⟩ hφ⟩

/-- Local functions do not shadow apply functions. -/
theorem find_fresh {key : ApplyKey} (hφ : FEnvApplied M φ φ') (hf : M key f) : φ'.find f = none := by
  rcases find_applied (f := f) hφ with ⟨-, h⟩ | ⟨d, d', ρ, ψ, ψ', -, -, rfl, hd, -⟩
  · exact h
  · exact absurd hf (hd.fresh key)

theorem selects_applied {w : Value} {ls ls' : List Lam} {xs : List Action} {l : Lam} {bs : Bindings}
    (h : Selects w ls xs l bs) (hls : List.Forall₂ (LamApplied M) ls ls') :
    ∃ l', Selects w ls' xs l' bs ∧ LamApplied M l l' := by
  induction h generalizing ls' with
  | here h =>
    cases hls with
    | cons hl _ => exact ⟨_, .here (hl.1 ▸ h), hl⟩
  | skip h _ ih =>
    cases hls with
    | cons hl hls =>
      obtain ⟨l', hsel, hl'⟩ := ih hls
      exact ⟨l', .skip (hl.1 ▸ h) hsel, hl'⟩

end

/-! ### Runs -/

/-- What the resulting program has for the functions and for the applications. -/
structure Served (P : Prog) (g : GrinProgram) (tags : List Tag) (M : ApplyKey → Atom → Prop) : Prop where
  body : ∀ f l, P.body f = some l → ∃ l', (P.setGrin g).body f = some l' ∧ LamApplied M l l'
  apply : ∀ key n, M key n →
    ∃ l, (P.setGrin g).body n = some l ∧ createApply key.1 key.2 P.grinTypeEnv tags = some l
  closed : TagsClosed P.grinTypeEnv (· ∈ tags)

section
variable {P : Prog} {g : GrinProgram} {tags : List Tag} {M : ApplyKey → Atom → Prop} {φ φ' : FEnv} {ρ : Frame}
variable {e e' : Exp} {xs : List Action} {out : Out} {t f : Tag} {m a : ℕ} {fs ws : List Value} {ts : List Ty}
variable {v : Val} {us : List Val}

theorem applied_apply {mt : Option Ty} (h : Applied M (.baseOp (.apply ts) (v :: us)) e')
    (hus : us.map Val.getType = mt.toList.map some) :
    ∃ n, e' = .app n (v :: us) ts ∧ M (mt.getD .tyUnit, ts) n := by
  cases h with
  | @erased _ _ n h =>
    cases mt with
    | none => exact ⟨n, rfl, h⟩
    | some t => cases hus
  | @arg _ _ u t n ht h =>
    cases mt with
    | none => cases hus
    | some t' =>
      have htt : some t = some t' := by
        rw [← ht]
        exact (List.cons.inj hus).1
      cases htt
      exact ⟨n, rfl, h⟩
  | @keep e es hkeep _ _ _ =>
    cases us with
    | nil => cases hkeep
    | cons u us =>
      cases us with
      | nil => cases hkeep
      | cons u' us =>
        cases mt with
        | none => cases hus
        | some t => cases (List.cons.inj hus).2

theorem susp_eq_false (h : tagUnfunction t = some (m + 1, f)) : tagIsSuspFunction t = false := by
  by_contra hsusp
  rw [Bool.not_eq_false] at hsusp
  unfold tagUnfunction at h
  rw [if_pos hsusp] at h
  obtain ⟨g, -, hg⟩ := Option.map_eq_some_iff.1 h
  cases hg

/-- The call that an application was replaced by runs the alternative of the node's tag. -/
theorem apply_calls (hs : Served P g tags M) (ha : Applied M (.baseOp (.apply ts) (v :: us)) e')
    (hφ : FEnvApplied M φ φ') (hv : Vals P ρ (v :: us) xs (.ptr a 0 :: ws))
    (ht : tagUnfunction t = some (m + 1, f)) (hty : Applies P.grinTypeEnv ts us t)
    (hcell : CellOk P.grinTypeEnv (· ∈ tags) (.node t fs)) :
    ∃ k argType alt tyty ρ₁, applyAlt argType P.grinTypeEnv t = some alt ∧ findTyTy P.grinTypeEnv t = some tyty ∧
      Vals (P.setGrin g) ρ₁ (fieldVars v3 tyty.tySlots ++ argVars argType) [] (fs ++ ws) ∧
      ∀ zs out, Run (P.setGrin g) [] ρ₁ alt.exp zs out →
        Run (P.setGrin g) φ' ρ e' (xs ++ (List.replicate (k + 1) (.read a (.node t fs)) ++ zs)) out := by
  obtain ⟨hmem, tyty, htyty, hfs⟩ := hcell m f ht
  obtain ⟨tyty', mt, w, r, htyty', hthunk, hr, hts, hus⟩ := hty
  cases htyty.symm.trans htyty'
  obtain ⟨tyty', mt', w', r', htyty', hthunk', -, hmt, -⟩ := hasPartials_spec (hs.closed.partials _ _ _ hmem ht)
  cases htyty.symm.trans htyty'
  have heq : mt' = mt := (TyThunk.tyPApp.inj (hthunk'.symm.trans hthunk)).1
  subst heq hts
  obtain ⟨n, rfl, hn⟩ := applied_apply ha hus
  obtain ⟨l, hbody, hl⟩ := hs.apply _ _ hn
  have hlen : ws.length = mt'.toList.length := by
    have hvs := vals_length hv
    simp only [List.length_cons, Nat.add_right_cancel_iff] at hvs
    rw [hvs, ← List.length_map (f := Val.getType), hus, List.length_map]
  obtain ⟨k, alt, halt, hbind, hvals, hruns⟩ := createApply_runs (a := a) (ρ := P.globals) (P := P.setGrin g) hl hmem
    (susp_eq_false ht) htyty hthunk hr hmt hfs.symm hlen
  refine ⟨k, _, alt, tyty, _, halt, htyty, hvals, fun zs out hrun => ?_⟩
  have happ : Enters (P.setGrin g) ρ (.app n (v :: us) r.tyReturn) xs n (.ptr a 0 :: ws) none := .app (vals_setGrin hv)
  have henter := Run.enter happ (fun _ => find_fresh hφ hn) hbody hbind (hruns [] zs out hrun)
  have hupd : updates none out = [] := rfl
  rw [hupd, List.append_nil] at henter
  exact henter

/-- A run of the program has one of the resulting program. -/
theorem run_applied (hs : Served P g tags M) (h : Run P φ ρ e xs out)
    (hcells : ∀ a c, .read a c ∈ xs → CellOk P.grinTypeEnv (· ∈ tags) c) (ha : Applied M e e')
    (hφ : FEnvApplied M φ φ') : ∃ ys, Run (P.setGrin g) φ' ρ e' ys out ∧ Rereads xs ys := by
  induction h generalizing e' φ' with
  | @does φ ρ e xs ws h =>
    by_cases happ : ∃ ts vs, e = .baseOp (.apply ts) vs
    · obtain ⟨ts, vs, rfl⟩ := happ
      cases h with
      | pass hop _ => cases hop
      | @applyPart _ v us xs a ws t fs f t' b n hv ht ht' hty =>
        have hcell := hcells a (.node t fs) (List.mem_append_right _ List.mem_cons_self)
        obtain ⟨k, argType, alt, tyty, ρ₁, halt, htyty, hvals, hruns⟩ := apply_calls hs ha hφ hv ht hty hcell
        have hlen := vals_length hvals
        have hnode : Vals (P.setGrin g) ρ₁ [.nodeC t' (fieldVars v3 tyty.tySlots ++ argVars argType)]
            ([] ++ [.alloc b (.node t' (fs ++ ws))]) [.ptr b 0] := by
          refine .node hlen.symm ?_
          rw [List.append_nil, List.append_nil]
          exact hvals
        have hstore := Run.does (φ := []) (Does.storeNode (d := true) hnode)
        rw [← applyAlt_store halt htyty ht ht'] at hstore
        refine ⟨_, hruns _ _ hstore, rereads_append rereads_refl ?_⟩
        exact rereads_append (rereads_replicate k) rereads_refl
    · obtain ⟨hdoes, hblocks, hkeep⟩ := does_setGrin (g := g) h fun ts vs heq => happ ⟨ts, vs, heq⟩
      cases applied_flat ha hblocks hkeep
      exact ⟨xs, .does hdoes, rereads_refl⟩
  | cut => exact ⟨[], .cut, .nil⟩
  | error =>
    cases applied_flat ha rfl rfl
    exact ⟨[], .error, .nil⟩
  | bind _ hl _ ih₁ ih₂ =>
    obtain ⟨b, l', rfl, hb, hbind, hl'⟩ := applied_bind ha
    obtain ⟨ys₁, hrun₁, hre₁⟩ := ih₁ (fun a c hac => hcells a c (List.mem_append_left _ hac)) hb hφ
    obtain ⟨ys₂, hrun₂, hre₂⟩ := ih₂ (fun a c hac => hcells a c (List.mem_append_right _
      (List.mem_append_right _ hac))) hl' hφ
    exact ⟨_, .bind hrun₁ (hbind ▸ hl) hrun₂, rereads_append hre₁ (rereads_append rereads_refl hre₂)⟩
  | bindStop _ hout ih =>
    obtain ⟨b, l', rfl, hb, -⟩ := applied_bind ha
    obtain ⟨ys, hrun, hre⟩ := ih hcells hb hφ
    exact ⟨ys, .bindStop hrun hout, hre⟩
  | case hv hl _ ih =>
    obtain ⟨as', rfl, has⟩ := applied_case ha
    obtain ⟨l', hsel, hl'⟩ := selects_applied hl has
    obtain ⟨ys, hrun, hre⟩ := ih (fun a c hac => hcells a c (List.mem_append_right _
      (List.mem_append_right _ hac))) hl'.2 hφ
    exact ⟨_, .case (vals_setGrin hv) hsel hrun, rereads_append rereads_refl (rereads_append rereads_refl hre)⟩
  | @enter φ ρ e xs f ws upd l ys bs zs out he hnone hf hl _ ih =>
    obtain ⟨⟨b, e₁⟩, hbody, hbind, hl'⟩ := hs.body _ _ hf
    have hcells' : ∀ a c, .read a c ∈ zs → CellOk P.grinTypeEnv (· ∈ tags) c := fun a c hac =>
      hcells a c (List.mem_append_right _ (List.mem_append_right _ (List.mem_append_left _ hac)))
    obtain ⟨zs', hrun, hre⟩ := ih hcells' hl' .nil
    have hrest : Rereads (ys ++ (zs ++ updates upd out)) (ys ++ (zs' ++ updates upd out)) :=
      rereads_append rereads_refl (rereads_append hre rereads_refl)
    by_cases happ : ∃ ts vs, e = .baseOp (.apply ts) vs
    · obtain ⟨ts, vs, rfl⟩ := happ
      cases he with
      | @apply _ v us xs a ws t fs f hv ht hty =>
        have hcell := hcells a (.node t fs) (List.mem_append_left _ (List.mem_append_right _ List.mem_cons_self))
        obtain ⟨k, argType, alt, tyty, ρ₁, halt, htyty, hvals, hruns⟩ := apply_calls hs ha hφ hv ht hty hcell
        obtain ⟨ty, hexp⟩ := applyAlt_call halt htyty ht
        have happ : Enters (P.setGrin g) ρ₁ (.app f (fieldVars v3 tyty.tySlots ++ argVars argType) ty) [] f (fs ++ ws)
            none := .app hvals
        have henter := Run.enter (φ := []) happ (fun _ => rfl) hbody (hbind ▸ hl) hrun
        rw [← hexp] at henter
        refine ⟨_, hruns _ _ henter, ?_⟩
        rw [List.append_assoc]
        exact rereads_append rereads_refl (rereads_append (rereads_replicate k) hrest)
    · obtain ⟨henters, hblocks, hkeep⟩ := enters_setGrin (g := g) he fun ts vs heq => happ ⟨ts, vs, heq⟩
      cases applied_flat ha hblocks hkeep
      refine ⟨_, .enter henters (fun hmem => ?_) hbody (hbind ▸ hl) hrun, rereads_append rereads_refl hrest⟩
      rcases find_applied (f := f) hφ with ⟨-, h⟩ | ⟨d, d', ρ', ψ, ψ', h, -⟩
      · exact h
      · cases (hnone hmem).symm.trans h
  | @jump φ ρ f vs ty xs ws d ρ' ψ ys bs zs out hv hfind hl _ ih =>
    cases applied_flat ha rfl rfl
    rcases find_applied (f := f) hφ with ⟨h, -⟩ | ⟨d', d'', ρ'', ψ', ψ'', h, hfind', -, hd, hψ⟩
    · cases hfind.symm.trans h
    · cases hfind.symm.trans h
      obtain ⟨zs', hrun, hre⟩ := ih (fun a c hac => hcells a c (List.mem_append_right _
        (List.mem_append_right _ hac))) hd.body.2 hψ
      refine ⟨_, .jump (vals_setGrin hv) hfind' (hd.body.1 ▸ hl) hrun, ?_⟩
      exact rereads_append rereads_refl (rereads_append rereads_refl hre)
  | lett _ ih =>
    obtain ⟨ds', b', p', rfl, hds, hb⟩ := applied_lett ha
    obtain ⟨ys, hrun, hre⟩ := ih hcells hb (List.Forall₂.cons (b := (ds', _)) ⟨rfl, hds⟩ hφ)
    exact ⟨ys, .lett hrun, hre⟩
  | newRegion hl _ ih =>
    obtain ⟨l', rfl, hbind, hl'⟩ := applied_newRegion ha
    obtain ⟨ys, hrun, hre⟩ := ih (fun a c hac => hcells a c (List.mem_append_right _ hac)) hl' hφ
    exact ⟨_, .newRegion (hbind ▸ hl) hrun, rereads_append rereads_refl hre⟩
  | gcRoots _ ih =>
    obtain ⟨b, rfl, hb⟩ := applied_gcRoots ha
    obtain ⟨ys, hrun, hre⟩ := ih hcells hb hφ
    exact ⟨ys, .gcRoots hrun, hre⟩

end

end Jhc.Grin
