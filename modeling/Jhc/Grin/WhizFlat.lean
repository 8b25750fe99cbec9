import Jhc.Grin.WhizSound

/-!
# whiz, fizz and whizExps with callbacks that return their arguments

In every monad such callbacks do nothing else, so that the code is the one of the identity
monad.
-/

namespace Jhc.Grin.Whiz

section Pure

variable {m : Type → Type} [Monad m] [LawfulMonad m] {o : Order} {n : ℕ} {env : WhizEnv} {s : WhizState}

/-- On expressions of at most `n` parts the callbacks do nothing in the monad. -/
def PureTo (m : Type → Type) [Monad m] (o : Order) (n : ℕ) : Prop :=
  ∀ (env : WhizEnv) (e : Exp) (xs : Stack) (s : WhizState), e.size + xs.size ≤ n →
    (f (m := m) o (fun _ x => x) (fun pe => pure (some pe)) pure env e xs).run s = pure (fSame o env e xs s)

theorem dc_pure (hn : PureTo m o n) {l : Lam} (hsize : l.exp.size ≤ n) :
    (dc (m := m) o (fun _ x => x) (fun pe => pure (some pe)) pure env l).run s = pure (dcSame o env l s) := by
  rw [dc, dc_eq]
  have hf := hn ((renamePattern l.bind s).1.2.append env) l.exp [] (renamePattern l.bind s).2 hsize
  simp [hf]

theorem dcs_pure (hn : PureTo m o n) {ls : List Lam} (hsize : lamSizes ls ≤ n) :
    (dcs (m := m) o (fun _ x => x) (fun pe => pure (some pe)) pure env ls).run s = pure (dcsSame o env ls s) := by
  induction ls generalizing s with
  | nil =>
    rw [dcs, dcs_nil]
    rfl
  | cons l ls ih =>
    rw [lamSizes_cons] at hsize
    rw [dcs, dcs_cons, StateT.run_bind, dc_pure hn (by omega), pure_bind, StateT.run_bind, ih (by omega), pure_bind]
    rfl

theorem dcDefs_pure (hn : PureTo m o n) {ds : List FuncDef} (hsize : defSizes ds ≤ n) :
    (dcDefs (m := m) o (fun _ x => x) (fun pe => pure (some pe)) pure env ds).run s = pure (dcDefsSame o env ds s) := by
  induction ds generalizing s with
  | nil =>
    rw [dcDefs, dcDefs_nil]
    rfl
  | cons d ds ih =>
    rw [defSizes_cons] at hsize
    rw [dcDefs, dcDefs_cons, StateT.run_bind, dc_pure hn (by omega), pure_bind, StateT.run_bind, ih (by omega), pure_bind]
    rfl

theorem g_pure (hn : PureTo m o n) {e : Exp} (hsize : e.size ≤ n + 1) :
    (g (m := m) o (fun _ x => x) (fun pe => pure (some pe)) pure env e).run s = pure (gSame o env e s) := by
  cases e with
  | case v as =>
    rw [size_case] at hsize
    rw [g, g_case, StateT.run_bind, dcs_pure hn (by omega), pure_bind]
    rfl
  | gcRoots vs b =>
    rw [size_gcRoots] at hsize
    rw [g, g_gcRoots, StateT.run_bind, hn env b [] s (by rw [stack_size_nil]; omega), pure_bind]
    rfl
  | lett ds b props =>
    rw [size_lett] at hsize
    rw [g, g_lett, StateT.run_bind, hn env b [] s (by rw [stack_size_nil]; omega), pure_bind, StateT.run_bind,
      dcDefs_pure hn (by omega), pure_bind]
    rfl
  | _ =>
    rw [g_leaf (fun _ _ h => Exp.noConfusion h) (fun _ _ h => Exp.noConfusion h) (fun _ _ _ h => Exp.noConfusion h)]
    rw [g]
    · rfl
    · exact fun _ _ h => Exp.noConfusion h
    · exact fun _ _ h => Exp.noConfusion h
    · exact fun _ _ _ h => Exp.noConfusion h

theorem f_pure (n : ℕ) : PureTo m o n := by
  induction n with
  | zero =>
    intro env e xs s hsize
    have hpos := size_pos e
    omega
  | succ n ih =>
    intro env e xs s hsize
    cases hbind : e.isBind with
    | true =>
      cases e with
      | bind a l =>
        rw [size_bind] at hsize
        have hsmall : a.size + Stack.size ((env, l.bind, l.exp) :: xs) ≤ n := by
          rw [stack_size_cons]
          show a.size + (l.exp.size + xs.size) ≤ n
          omega
        rw [f, f_bind]
        exact ih _ _ _ _ hsmall
      | _ => cases hbind
    | false =>
      have hne : ∀ a l, e ≠ .bind a l := by
        rintro a l rfl
        cases hbind
      cases xs with
      | nil =>
        rw [f_nil hbind, f, StateT.run_bind, g_pure ih hsize, pure_bind]
        · simp
        · exact hne
      | cons x rs =>
        obtain ⟨senv, p, b⟩ := x
        have hpos := size_pos e
        have hpos' := size_pos b
        have hsum : e.size + (b.size + Stack.size rs) ≤ n + 1 := by
          rwa [stack_size_cons] at hsize
        by_cases herror : o = .fizz ∧ ∃ msg ty, e = .error msg ty
        · obtain ⟨rfl, msg, ty, rfl⟩ := herror
          rw [f, f_error]
          refine ih _ _ _ _ ?_
          rw [size_error] at hsum ⊢
          omega
        · have hnot : ∀ msg ty, o = .fizz → e = .error msg ty → False := fun msg ty ho heq => herror ⟨ho, msg, ty, heq⟩
          have hrest : ∀ senv s, (f (m := m) o (fun _ x => x) (fun pe => pure (some pe)) pure senv b rs).run s =
              pure (fSame o senv b rs s) := fun senv s => ih senv b rs s (by omega)
          cases ht : tupleOf p e with
          | none =>
            rw [f_step hbind (fun ho msg ty heq => hnot msg ty ho heq) ht, f]
            · cases o with
              | whiz => simp [ht, g_pure ih (show e.size ≤ n + 1 by omega), hrest]
              | fizz => simp [ht, g_pure ih (show e.size ≤ n + 1 by omega), hrest]
            · exact hne
            · exact hnot
          | some ys =>
            obtain ⟨vs, rfl, -, rfl⟩ := tupleOf_some ht
            rw [f_tuple ht, f]
            · cases o with
              | whiz => simp [ht, hrest]
              | fizz => simp [ht, hrest]
            · exact hne
            · exact hnot

end Pure

/-! ### Whole lambdas -/

/-- What has come out of `l`. -/
structure Flattened (s : WhizState) (l : Lam) (r : Lam × WhizState) : Prop where
  nodup : r.1.binders.Nodup
  fresh : ∀ x ∈ r.1.binders, ¬ Used s x ∧ Used r.2 x ∧ 0 ≤ x
  nested : r.1.RightNested
  same : ∀ (M : Type → Type) [Monad M] [LawfulMonad M] (V : Type) (S : Machine M V) (φ : Machine.Funs M V)
    (ρ : Var → V) (ws : List V), S.lam φ ρ r.1 ws = S.lam φ ρ l ws

theorem agrees_self {V : Type} (s : WhizState) (ρ : Var → V) : Agrees (fun _ => none) s ρ ρ := by
  refine ⟨fun x v hx => ?_, fun _ _ => ⟨rfl, rfl⟩⟩
  cases hx

theorem flattened (o : Order) {s : WhizState} (hs : Good s) {l : Lam} (hl : l.Proper) :
    Flattened s l (dcSame o (fun _ => none) l s) := by
  have hscope : Proper (Under (InScope fun _ => none) l.bind) l.exp :=
    hl.2.mono fun x hx => hx.mono fun _ hneg => Or.inr hneg
  have hsound := dc_sound (f_sound o l.exp.size) (le_refl _) hl.1 hscope hs
  refine ⟨hsound.grows.nodup, hsound.grows.fresh, hsound.nested, fun M _ _ V S φ ρ ws => ?_⟩
  exact (hsound.same M V S φ ρ ρ (agrees_self s ρ)).1 ws

variable {m : Type → Type} [Monad m] [LawfulMonad m]

theorem whizExps_pure (l : Lam) :
    whizExps (m := m) pure l = pure (dcSame .whiz (fun _ => none) l whizState).1 := by
  have hdc : (dc (m := m) .whiz (fun _ x => x) (fun pe => pure (some pe)) pure (fun _ => none) l).run whizState = _ :=
    dc_pure (f_pure l.exp.size) (le_refl _)
  rw [whizExps, whiz]
  simp [hdc]

theorem whiz_flattens (m : Type → Type) [Monad m] [LawfulMonad m] (s : WhizState) (hs : Good s) (l : Lam)
    (hl : l.Proper) :
    (∃ r, whiz (m := m) (fun _ x => x) (fun pe => pure (some pe)) pure s l = pure r ∧ Flattened s l r) ∧
      (∃ r, fizz (m := m) (fun _ x => x) (fun pe => pure (some pe)) pure s l = pure r ∧ Flattened s l r) ∧
      ∃ r, whizExps (m := m) pure l = pure r.1 ∧ Flattened whizState l r := by
  refine ⟨⟨_, ?_, flattened .whiz hs hl⟩, ⟨_, ?_, flattened .fizz hs hl⟩, ⟨_, ?_, flattened .whiz (s := whizState) trivial hl⟩⟩
  · exact dc_pure (f_pure l.exp.size) (le_refl _)
  · exact dc_pure (f_pure l.exp.size) (le_refl _)
  · exact whizExps_pure l

/-- Two statements in the wrong order of nesting, with a variable that is bound twice. -/
def twice : Lam :=
  .mk [.var 1 .tyNode] (.bind (.bind (.ret [.var 1 .tyNode]) (.mk [.var 1 .tyNode] (.baseOp .promote [.var 1 .tyNode])))
    (.mk [.var 2 .tyNode] (.ret [.var 2 .tyNode, .var (-1) .tyNode])))

theorem twice_proper : twice.Proper := by
  refine ⟨by decide, .bind (.bind (.ret ?_) (by decide) (.baseOp ?_)) (by decide) (.ret ?_)⟩
  · simp [twice, Val.names, Val.namesOf, Under, Val.bindersOf, Val.binders]
  · simp [twice, Val.names, Val.namesOf, Under, Val.bindersOf, Val.binders]
  · simp [twice, Val.names, Val.namesOf, Under, Val.bindersOf, Val.binders]

theorem whiz_flattens_twice :
    (∃ r, whiz (m := Option) (fun _ x => x) (fun pe => pure (some pe)) pure (.right 1) twice = pure r ∧
        Flattened (.right 1) twice r) ∧
      (∃ r, fizz (m := Option) (fun _ x => x) (fun pe => pure (some pe)) pure (.right 1) twice = pure r ∧
        Flattened (.right 1) twice r) ∧
      ∃ r, whizExps (m := Option) pure twice = pure r.1 ∧ Flattened whizState twice r :=
  whiz_flattens Option (.right 1) (show (0 : ℤ) ≤ 1 by decide) twice twice_proper

/-! ### Tuples and errors -/

/-- Neither new names nor another order of nesting change the number of parts. -/
theorem size_assoc (a b c : Exp) (p q : List Val) :
    (Exp.bind (.bind a (.mk p b)) (.mk q c)).size = (Exp.bind a (.mk p (.bind b (.mk q c)))).size := by
  simp only [size_bind, Lam.exp_mk]
  omega

/-- The assignment of a tuple. -/
def pair : Lam :=
  .mk [] (.bind (.ret [.lit 0 .tyNode, .lit 1 .tyNode]) (.mk [.var 1 .tyNode, .var 2 .tyNode] (.ret [.var 2 .tyNode])))

/-- A statement after an error. -/
def afterError : Lam := .mk [] (.bind (.error "" []) (.mk [] (.ret [])))

theorem whiz_pair : dcSame .whiz (fun _ => none) pair (.right 1) =
    (.mk [] (.bind (.ret [.lit 0 .tyNode]) (.mk [.var 1 .tyNode] (.bind (.ret [.lit 1 .tyNode])
      (.mk [.var 2 .tyNode] (.ret [.var 2 .tyNode]))))), .right 3) := by
  rw [dc_eq]
  show (let z := fSame .whiz _ (.bind _ _) [] (.right 1); (Lam.mk [] z.1, z.2)) = _
  rw [f_bind, f_tuple rfl]
  dsimp only
  rw [Lam.exp_mk, f_nil rfl, g_leaf (by simp) (by simp) (by simp)]
  rfl

theorem fizz_afterError : dcSame .fizz (fun _ => none) afterError (.right 1) = (.mk [] (.error "" []), .right 1) := by
  rw [dc_eq]
  show (let z := fSame .fizz _ (.bind _ _) [] (.right 1); (Lam.mk [] z.1, z.2)) = _
  rw [f_bind, f_error, f_nil rfl, g_leaf (by simp) (by simp) (by simp)]
  rfl

theorem whiz_resizes :
    (whiz (m := Id) (fun _ x => x) (fun pe => some pe) id (.right 1) pair).1.exp.size ≠ pair.exp.size ∧
      (fizz (m := Id) (fun _ x => x) (fun pe => some pe) id (.right 1) afterError).1.exp.size ≠
        afterError.exp.size := by
  have hpair : whiz (m := Id) (fun _ x => x) (fun pe => some pe) id (.right 1) pair = _ := whiz_pair
  have herror : fizz (m := Id) (fun _ x => x) (fun pe => some pe) id (.right 1) afterError = _ := fizz_afterError
  rw [hpair, herror]
  simp only [pair, afterError, Lam.exp_mk, size_bind, size_error]
  have hret : ∀ vs, (Exp.ret vs).size = 1 := fun vs => by
    rw [Exp.size_eq]
    rfl
  simp [hret]

end Jhc.Grin.Whiz
