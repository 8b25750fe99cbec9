import Mathlib.Tactic.Common

/-!
# Computations with fuel

A computation that takes fuel settles on a result when it gives that result from some
amount of fuel on. `Yields f s P`: from `s` it settles on a result and a state that satisfy `P`.
-/

namespace Jhc.Lib
universe u

variable {σ ε α β : Type u}

abbrev FuelM (σ ε α : Type u) := ℕ → StateT σ (Except ε) α

def Settles (f : FuelM σ ε α) (s : σ) (r : Except ε (α × σ)) : Prop :=
  ∃ N, ∀ n, N ≤ n → f n s = r

namespace Settles

variable {f : FuelM σ ε α} {s s₁ : σ} {r : Except ε (α × σ)}

theorem unique {r' : Except ε (α × σ)} (h : Settles f s r) (h' : Settles f s r') : r = r' := by
  obtain ⟨N, hN⟩ := h
  obtain ⟨M, hM⟩ := h'
  rw [← hN (max N M) (Nat.le_max_left N M), hM (max N M) (Nat.le_max_right N M)]

theorem const (h : ∀ n, f n s = r) : Settles f s r := ⟨0, fun n _ => h n⟩

theorem pure (a : α) (s : σ) : Settles (ε := ε) (fun _ => Pure.pure a) s (.ok (a, s)) :=
  const fun _ => rfl

theorem throw (e : ε) (s : σ) : Settles (α := α) (fun _ => MonadExcept.throw e) s (.error e) :=
  const fun _ => rfl

/-- A recursion spends one unit of fuel a level. -/
theorem of_succ (h : Settles (fun n => f (n + 1)) s r) : Settles f s r := by
  obtain ⟨N, hN⟩ := h
  refine ⟨N + 1, fun n hn => ?_⟩
  obtain ⟨m, rfl⟩ : ∃ m, n = m + 1 := ⟨n - 1, by omega⟩
  exact hN m (by omega)

theorem succ (h : Settles f s r) : Settles (fun n => f (n + 1)) s r := by
  obtain ⟨N, hN⟩ := h
  exact ⟨N, fun n hn => hN (n + 1) (by omega)⟩

variable {g : ℕ → α → StateT σ (Except ε) β} {a : α} {r' : Except ε (β × σ)}

theorem bind (h : Settles f s (.ok (a, s₁))) (hg : Settles (fun n => g n a) s₁ r') :
    Settles (fun n => f n >>= g n) s r' := by
  obtain ⟨N, hN⟩ := h
  obtain ⟨M, hM⟩ := hg
  refine ⟨max N M, fun n hn => ?_⟩
  have hf := hN n (Nat.le_trans (Nat.le_max_left N M) hn)
  have hgn := hM n (Nat.le_trans (Nat.le_max_right N M) hn)
  show (f n s >>= fun p => g n p.1 p.2) = r'
  rw [hf]
  exact hgn

theorem bind_error {e : ε} (h : Settles f s (.error e)) :
    Settles (fun n => f n >>= g n) s (.error e) := by
  obtain ⟨N, hN⟩ := h
  refine ⟨N, fun n hn => ?_⟩
  show (f n s >>= fun p => g n p.1 p.2) = .error e
  rw [hN n hn]
  rfl

end Settles

def Yields (f : FuelM σ ε α) (s : σ) (P : α → σ → Prop) : Prop :=
  ∃ a s', Settles f s (.ok (a, s')) ∧ P a s'

namespace Yields

variable {f : FuelM σ ε α} {s s' : σ} {P Q : α → σ → Prop} {a : α}

theorem mono (h : Yields f s P) (hP : ∀ a s', P a s' → Q a s') : Yields f s Q := by
  obtain ⟨a, s', hf, ha⟩ := h
  exact ⟨a, s', hf, hP a s' ha⟩

/-- A computation that needs no fuel. -/
theorem of_eq (h : ∀ n, f n s = .ok (a, s')) (hP : P a s') : Yields f s P := ⟨a, s', .const h, hP⟩

theorem of_succ (h : Yields (fun n => f (n + 1)) s P) : Yields f s P := by
  obtain ⟨a, s', hf, ha⟩ := h
  exact ⟨a, s', hf.of_succ, ha⟩

theorem pure (hP : P a s) : Yields (ε := ε) (fun _ => Pure.pure a) s P := of_eq (fun _ => rfl) hP

theorem bind {g : ℕ → α → StateT σ (Except ε) β} {R : β → σ → Prop} (h : Yields f s P)
    (hg : ∀ a s', P a s' → Yields (fun n => g n a) s' R) : Yields (fun n => f n >>= g n) s R := by
  obtain ⟨a, s', hf, ha⟩ := h
  obtain ⟨b, t, hb, hR⟩ := hg a s' ha
  exact ⟨b, t, hf.bind hb, hR⟩

theorem map {k : α → β} {R : β → σ → Prop} (h : Yields f s P) (hk : ∀ a s', P a s' → R (k a) s') :
    Yields (fun n => k <$> f n) s R := by
  obtain ⟨a, s', ⟨N, hN⟩, ha⟩ := h
  refine ⟨k a, s', ⟨N, fun n hn => ?_⟩, hk a s' ha⟩
  show (f n s >>= fun p => Except.ok (k p.1, p.2)) = _
  rw [hN n hn]
  rfl

/-- A loop over a list: the invariant sees the part of the list that is done. -/
theorem forM {γ : Type u} {g : ℕ → γ → StateT σ (Except ε) PUnit} (I : List γ → σ → Prop) (xs : List γ)
    (hg : ∀ done x rest, xs = done ++ x :: rest → ∀ s, I done s →
      Yields (fun n => g n x) s fun _ s' => I (done ++ [x]) s') (h : I [] s) :
    Yields (fun n => xs.forM (g n)) s fun _ s' => I xs s' := by
  suffices hrest : ∀ rest done, xs = done ++ rest → ∀ s, I done s →
      Yields (fun n => rest.forM (g n)) s fun _ s' => I xs s' from hrest xs [] rfl s h
  intro rest
  induction rest with
  | nil =>
    intro done hxs s hs
    rw [List.append_nil] at hxs
    subst hxs
    exact .pure hs
  | cons x rest ih =>
    intro done hxs s hs
    refine (hg done x rest hxs s hs).bind fun _ s' hs' => ?_
    exact ih (done ++ [x]) (by rw [hxs, List.append_assoc, List.singleton_append]) s' hs'

/-- The same with a value that is passed on. -/
theorem foldlM {γ : Type u} {g : ℕ → β → γ → StateT σ (Except ε) β} (I : List γ → β → σ → Prop) (xs : List γ)
    (hg : ∀ done x rest, xs = done ++ x :: rest → ∀ b s, I done b s →
      Yields (fun n => g n b x) s fun b' s' => I (done ++ [x]) b' s') {b : β} (h : I [] b s) :
    Yields (fun n => xs.foldlM (g n) b) s fun b' s' => I xs b' s' := by
  suffices hrest : ∀ rest done, xs = done ++ rest → ∀ b s, I done b s →
      Yields (fun n => rest.foldlM (g n) b) s fun b' s' => I xs b' s' from hrest xs [] rfl b s h
  intro rest
  induction rest with
  | nil =>
    intro done hxs b s hs
    rw [List.append_nil] at hxs
    subst hxs
    exact .pure hs
  | cons x rest ih =>
    intro done hxs b s hs
    simp only [List.foldlM_cons]
    refine (hg done x rest hxs b s hs).bind fun b' s' hs' => ?_
    exact ih (done ++ [x]) (by rw [hxs, List.append_assoc, List.singleton_append]) b' s' hs'

/-- A result for each element, in states that keep an invariant. -/
theorem mapM {γ : Type u} {g : ℕ → γ → StateT σ (Except ε) β} (I : σ → Prop) (R : γ → β → Prop) (xs : List γ)
    (hg : ∀ x ∈ xs, ∀ s, I s → Yields (fun n => g n x) s fun b s' => R x b ∧ I s') (h : I s) :
    Yields (fun n => xs.mapM (g n)) s fun bs s' => List.Forall₂ R xs bs ∧ I s' := by
  induction xs generalizing s with
  | nil => exact .pure ⟨.nil, h⟩
  | cons x xs ih =>
    simp only [List.mapM_cons]
    refine (hg x (List.mem_cons_self ..) s h).bind fun b s' hb => ?_
    refine (ih (fun y hy => hg y (List.mem_cons_of_mem x hy)) hb.2).bind fun bs s'' hbs => ?_
    exact .pure ⟨.cons hb.1 hbs.1, hbs.2⟩

end Yields

end Jhc.Lib
