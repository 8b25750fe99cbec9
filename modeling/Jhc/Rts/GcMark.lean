import Jhc.Rts.Gc

/-!
# The marking phase keeps what is reachable

The invariant of the grey stack relative to the arena `a` in which the
collection starts: whatever is marked and reachable is on the stack, or has all
its words followed. From it, `gc_perform_gc` marks every reachable object.
-/

namespace Jhc.Rts
namespace Arena

variable {T : Target} {P : ℕ → Prop}

/-! ### The invariant -/

/-- The word at `p` when the collection started, redirected. -/
def wordAt (a : Arena T) (p : Addr) : ℕ := redirect a.mem (a.mem p)

/-- The words of `v` have been followed. -/
def Closed (r : Roots) (a b : Arena T) (v : Addr) : Prop :=
  ∀ i < a.ptrs v, b.mem (v + i * T.wordBytes) = a.wordAt (v + i * T.wordBytes) ∧
    ∀ u, PointsTo r (a.wordAt (v + i * T.wordBytes)) u → b.Marked u

/-- The state `g` of the marking phase of a collection that starts in `a`; the
words of `busy` are being followed. -/
structure MarkInv (P : ℕ → Prop) (r : Roots) (a : Arena T) (busy : List Addr)
    (g : List Addr × Arena T) : Prop where
  shape : ∃ f m, g.2 = { a with block := f, mem := m }
  heap : Heap P g.2
  ptrs : ∀ v, a.IsObj v → g.2.ptrs v = a.ptrs v
  mem : ∀ p, g.2.mem p = a.mem p ∨ GET_PTYPE (a.mem p) = P_LAZY ∧ g.2.mem p = a.wordAt p
  grey : ∀ e ∈ g.1, Reachable r a e
  black : ∀ v, Reachable r a v → g.2.Marked v → v ∈ busy ∨ v ∈ g.1 ∨ Closed r a g.2 v
  held : ∀ v, a.IsObj v → g.2.Marked v → Held r a v

/-- Marks are never undone, and words that have their final value keep it. -/
structure Grow (a : Arena T) (b b' : Arena T) : Prop where
  marked : ∀ v, a.IsObj v → b.Marked v → b'.Marked v
  mem : ∀ p, b.mem p = a.wordAt p → b'.mem p = a.wordAt p

theorem Grow.refl (a b : Arena T) : Grow a b b := ⟨fun _ _ hm => hm, fun _ hp => hp⟩

theorem Grow.trans {a b c d : Arena T} (h : Grow a b c) (h' : Grow a c d) : Grow a b d :=
  ⟨fun v hv hm => h'.marked v hv (h.marked v hv hm), fun p hp => h'.mem p (h.mem p hp)⟩

theorem MarkInv.isObj {r : Roots} {a : Arena T} {busy : List Addr} {g : List Addr × Arena T}
    (h : MarkInv P r a busy g) (v : Addr) : g.2.IsObj v ↔ a.IsObj v := by
  obtain ⟨f, m, hg⟩ := h.shape
  rw [hg]
  exact Iff.rfl

theorem Live.isObj {r : Roots} {lazyAt : Addr → Bool} {a : Arena T} (h : Live r lazyAt a) {v : Addr}
    (hv : Reachable r a v) : a.IsObj v := (h.reachable hv).1.1

theorem Closed.grow {r : Roots} {lazyAt : Addr → Bool} {a b b' : Arena T} (hlive : Live r lazyAt a)
    {v : Addr} (hv : Reachable r a v) (h : Closed r a b v) (hgrow : Grow a b b') :
    Closed r a b' v := by
  intro i hi
  obtain ⟨hmem, hmark⟩ := h i hi
  refine ⟨hgrow.mem _ hmem, fun u hu => ?_⟩
  exact hgrow.marked u (hlive.isObj (.field hv hi hu)) (hmark u hu)

/-- The head of a lazy location does not change while marking. -/
theorem MarkInv.redirect_eq {r : Roots} {lazyAt : Addr → Bool} {a : Arena T} {busy : List Addr}
    {g : List Addr × Arena T} (h : MarkInv P r a busy g) (hlive : Live r lazyAt a) {w : ℕ}
    (hcell : GET_PTYPE w = P_LAZY → lazyAt (FROM_SPTR w) = true) :
    redirect g.2.mem w = redirect a.mem w := by
  refine redirect_congr fun hw => ?_
  rcases h.mem (FROM_SPTR w) with heq | ⟨hlazy, -⟩
  · exact heq
  · exact absurd hlazy (hlive.heads _ (hcell hw))

/-! ### gc_add_grey -/

instance (a : Arena T) (v : Addr) : Decidable (a.Marked v) := by
  unfold Marked
  infer_instance

def white (os : Finset Addr) (a : Arena T) : ℕ := (os.filter fun v => ¬ a.Marked v).card

/-- The bound on the turns of `gc_mark_deeper` that are left. -/
def work (os : Finset Addr) (g : List Addr × Arena T) : ℕ := g.1.length + white os g.2

theorem white_mark {a : Arena T} {os : Finset Addr} (hos : ∀ v, a.IsObj v ↔ v ∈ os) {v : Addr}
    {grey : Bool} {f : Addr → SBlock T.bitsPerUnit} (hv : a.IsObj v) (h : MarkSpec P a v grey f) :
    white os (a.withBlocks f) + (if grey then 1 else 0) ≤ white os a := by
  have hsub : (os.filter fun u => ¬ (a.withBlocks f).Marked u) ⊆ os.filter fun u => ¬ a.Marked u := by
    intro u hu
    rw [Finset.mem_filter] at hu ⊢
    exact ⟨hu.1, fun hm => hu.2 ((h.marked u ((hos u).mpr hu.1)).mpr (Or.inl hm))⟩
  cases grey with
  | false => exact Finset.card_le_card hsub
  | true =>
    refine Finset.card_lt_card (Finset.ssubset_iff_subset_ne.mpr ⟨hsub, fun heq => ?_⟩)
    have hin : v ∈ os.filter fun u => ¬ a.Marked u :=
      Finset.mem_filter.mpr ⟨(hos v).mp hv, h.grey_new rfl⟩
    rw [← heq, Finset.mem_filter] at hin
    exact hin.2 ((h.marked v hv).mpr (Or.inr rfl))

/-- What a step of the marking phase keeps. -/
structure Advance (P : ℕ → Prop) (r : Roots) (a : Arena T) (os : Finset Addr) (busy : List Addr)
    (g g' : List Addr × Arena T) : Prop where
  inv : MarkInv P r a busy g'
  grow : Grow a g.2 g'.2
  work_le : work os g' ≤ work os g

theorem Advance.refl {r : Roots} {a : Arena T} {os : Finset Addr} {busy : List Addr}
    {g : List Addr × Arena T} (h : MarkInv P r a busy g) : Advance P r a os busy g g :=
  ⟨h, Grow.refl _ _, Nat.le_refl _⟩

theorem Advance.trans {r : Roots} {a : Arena T} {os : Finset Addr} {busy : List Addr}
    {g g' g'' : List Addr × Arena T} (h : Advance P r a os busy g g')
    (h' : Advance P r a os busy g' g'') : Advance P r a os busy g g'' :=
  ⟨h'.inv, h.grow.trans h'.grow, h'.work_le.trans h.work_le⟩

/-- A call of `s_set_used_bit` on a held object. It is pushed if it is reachable
and the call says so. -/
theorem set_used_bit_step {r : Roots} {lazyAt : Addr → Bool} {a : Arena T} {os : Finset Addr}
    {busy : List Addr} {g : List Addr × Arena T} (h : MarkInv P r a busy g)
    (hlive : Live r lazyAt a) (hos : ∀ v, a.IsObj v ↔ v ∈ os) {v : Addr} (hv : a.IsObj v)
    (hheld : Held r a v) :
    ∃ grey b, s_set_used_bit v g.2 = some (grey, b) ∧ b.Marked v ∧ b.mem = g.2.mem ∧
      (¬ Reachable r a v → Advance P r a os busy g (g.1, b)) ∧
      (Reachable r a v → Advance P r a os busy g (if grey then v :: g.1 else g.1, b)) := by
  obtain ⟨grey, f, hspec⟩ := mark_obj h.heap ((h.isObj v).mpr hv)
  obtain ⟨fb, fm, hshape⟩ := h.shape
  have hmark : ∀ u, a.IsObj u → ((g.2.withBlocks f).Marked u ↔ g.2.Marked u ∨ u = v) :=
    fun u hu => hspec.marked u ((h.isObj u).mpr hu)
  have hgrow : Grow a g.2 (g.2.withBlocks f) :=
    ⟨fun u hu hm => (hmark u hu).mpr (Or.inl hm), fun p hp => hp⟩
  have hwhite := white_mark (fun u => (h.isObj u).trans (hos u)) ((h.isObj v).mpr hv) hspec
  have hptrs : ∀ u, a.IsObj u → (g.2.withBlocks f).ptrs u = a.ptrs u :=
    fun u hu => (hspec.ptrs u ((h.isObj u).mpr hu)).trans (h.ptrs u hu)
  have hkeep : ∀ u, a.IsObj u → (g.2.withBlocks f).Marked u → Held r a u := by
    intro u hu hm
    rcases (hmark u hu).mp hm with hold | rfl
    · exact h.held u hu hold
    · exact hheld
  have hshape' : ∃ f m, g.2.withBlocks f = { a with block := f, mem := m } := by
    refine ⟨f, fm, ?_⟩
    rw [hshape]
    rfl
  refine ⟨grey, g.2.withBlocks f, hspec.run, (hmark v hv).mpr (Or.inr rfl), rfl, ?_, ?_⟩
  · intro hnot
    refine ⟨⟨⟨f, fm, by rw [hshape]; rfl⟩, hspec.heap, hptrs, h.mem, h.grey, ?_, hkeep⟩, hgrow, ?_⟩
    · intro u hu hm
      rcases (hmark u (hlive.isObj hu)).mp hm with hold | rfl
      · exact (h.black u hu hold).imp_right (Or.imp_right fun hc => hc.grow hlive hu hgrow)
      · exact absurd hu hnot
    · show g.1.length + white os (g.2.withBlocks f) ≤ g.1.length + white os g.2
      omega
  · intro hreach
    have hstack : ∀ u, u ∈ g.1 → u ∈ (if grey then v :: g.1 else g.1) := by
      intro u hu
      split_ifs
      · exact List.mem_cons_of_mem _ hu
      · exact hu
    refine ⟨⟨⟨f, fm, by rw [hshape]; rfl⟩, hspec.heap, hptrs, h.mem, ?_, ?_, hkeep⟩, hgrow, ?_⟩
    · intro e he
      split_ifs at he
      · rcases List.mem_cons.mp he with rfl | htail
        · exact hreach
        · exact h.grey e htail
      · exact h.grey e he
    · intro u hu hm
      rcases (hmark u (hlive.isObj hu)).mp hm with hold | rfl
      · rcases h.black u hu hold with hb | hs | hc
        · exact Or.inl hb
        · exact Or.inr (Or.inl (hstack u hs))
        · exact Or.inr (Or.inr (hc.grow hlive hu hgrow))
      · cases hgrey : grey with
        | true => exact Or.inr (Or.inl (by simp))
        | false =>
          rcases hspec.black hgrey with hold | hzero
          · rcases h.black u hu hold with hb | hs | hc
            · exact Or.inl hb
            · exact Or.inr (Or.inl (by simpa using hs))
            · exact Or.inr (Or.inr (hc.grow hlive hu hgrow))
          · -- no words to follow
            refine Or.inr (Or.inr fun i hi => ?_)
            rw [← h.ptrs u hv, hzero] at hi
            omega
    · show (if grey then v :: g.1 else g.1).length + white os (g.2.withBlocks f) ≤
        g.1.length + white os g.2
      cases grey with
      | true =>
        simp only [if_true, List.length_cons] at hwhite ⊢
        omega
      | false =>
        simp only [Bool.false_eq_true, if_false] at hwhite ⊢
        omega

theorem gc_add_grey_step {r : Roots} {lazyAt : Addr → Bool} {a : Arena T} {os : Finset Addr}
    {busy : List Addr} {g : List Addr × Arena T} (h : MarkInv P r a busy g)
    (hlive : Live r lazyAt a) (hos : ∀ v, a.IsObj v ↔ v ∈ os) {v : Addr}
    (hv : gc_check_heap r v = true → Reachable r a v) :
    ∃ g', gc_add_grey r v g = some g' ∧ Advance P r a os busy g g' ∧ g'.2.mem = g.2.mem ∧
      (gc_check_heap r v = true → g'.2.Marked v) := by
  unfold gc_add_grey
  by_cases hheap : gc_check_heap r v = true
  · have hreach := hv hheap
    obtain ⟨grey, b, hrun, hmark, hmem, -, hadv⟩ :=
      set_used_bit_step h hlive hos (hlive.isObj hreach) (Or.inl hreach)
    rw [if_pos hheap, hrun]
    exact ⟨_, rfl, hadv hreach, hmem, fun _ => hmark⟩
  · rw [if_neg hheap]
    exact ⟨g, rfl, Advance.refl h, rfl, fun htrue => absurd htrue hheap⟩

theorem follow_step {r : Roots} {lazyAt : Addr → Bool} {a : Arena T} {os : Finset Addr}
    {busy : List Addr} {g : List Addr × Arena T} (h : MarkInv P r a busy g)
    (hlive : Live r lazyAt a) (hos : ∀ v, a.IsObj v ↔ v ∈ os) {w : ℕ}
    (hw : ∀ v, PointsTo r w v → Reachable r a v) :
    ∃ g', follow r w g = some g' ∧ Advance P r a os busy g g' ∧ g'.2.mem = g.2.mem ∧
      ∀ v, PointsTo r w v → g'.2.Marked v := by
  unfold follow
  by_cases hptr : IS_PTR w = true
  · obtain ⟨g', hrun, hadv, hmem, hmark⟩ := gc_add_grey_step h hlive hos
      (v := FROM_SPTR w) fun hheap => hw _ ⟨hptr, hheap, rfl⟩
    rw [if_pos hptr]
    refine ⟨g', hrun, hadv, hmem, fun v hv => ?_⟩
    obtain ⟨-, hheap, rfl⟩ := hv
    exact hmark hheap
  · rw [if_neg hptr]
    exact ⟨g, rfl, Advance.refl h, rfl, fun v hv => absurd hv.1 hptr⟩

/-! ### gc_mark_deeper -/

theorem Heap.withMem {a : Arena T} (h : Heap P a) (m : Addr → ℕ) : Heap P { a with mem := m } :=
  ⟨⟨h.nodup, h.handles, h.wf, h.admits, h.block, h.free, h.place, h.once,
    ⟨h.mega.aligned, h.mega.bound, h.mega.current, h.mega.disjoint⟩, h.mono⟩, h.monos⟩

/-- The word that `scanWord` stores is the redirected word of the start. -/
theorem scan_value {r : Roots} {lazyAt : Addr → Bool} {a : Arena T} {busy : List Addr}
    {g : List Addr × Arena T} (h : MarkInv P r a busy g) (hlive : Live r lazyAt a) {p : Addr}
    (hp : WordOk r lazyAt a (a.mem p)) : redirect g.2.mem (g.2.mem p) = a.wordAt p := by
  rcases h.mem p with heq | ⟨-, heq⟩
  · rw [heq]
    exact h.redirect_eq hlive hp.cell
  · rw [heq]
    unfold wordAt
    rcases redirect_cases a.mem (a.mem p) with hsame | ⟨-, -, hnot⟩
    · rw [hsame]
      rw [h.redirect_eq hlive hp.cell, hsame]
    · exact redirect_of_not_lazy hnot

theorem scanWord_step {r : Roots} {lazyAt : Addr → Bool} {a : Arena T} {os : Finset Addr}
    {e : Addr} {g : List Addr × Arena T} (h : MarkInv P r a [e] g) (hlive : Live r lazyAt a)
    (hos : ∀ v, a.IsObj v ↔ v ∈ os) (he : Reachable r a e) {i : ℕ} (hi : i < a.ptrs e) :
    ∃ g', scanWord r e g i = some g' ∧ Advance P r a os [e] g g' ∧
      g'.2.mem (e + i * T.wordBytes) = a.wordAt (e + i * T.wordBytes) ∧
      ∀ u, PointsTo r (a.wordAt (e + i * T.wordBytes)) u → g'.2.Marked u := by
  set p := e + i * T.wordBytes with hp
  have hok := hlive.fields e he i hi
  have hval := scan_value h hlive hok
  obtain ⟨fb, fm, hshape⟩ := h.shape
  set b : Arena T := { g.2 with mem := Function.update g.2.mem p (a.wordAt p) } with hb
  have hgrow : Grow a g.2 b := by
    refine ⟨fun _ _ hm => hm, fun q hq => ?_⟩
    by_cases hqp : q = p
    · rw [hqp]
      exact Function.update_self ..
    · rw [← hq]
      exact Function.update_of_ne hqp ..
  have hinv : MarkInv P r a [e] (g.1, b) := by
    refine ⟨⟨fb, Function.update g.2.mem p (a.wordAt p), ?_⟩, h.heap.withMem _, h.ptrs, ?_, h.grey,
      ?_, h.held⟩
    · rw [hb, hshape]
    · intro q
      by_cases hqp : q = p
      · have hq : b.mem q = a.wordAt p := by
          rw [hqp]
          exact Function.update_self ..
        rcases redirect_cases a.mem (a.mem p) with heq | ⟨hlazy, -⟩
        · refine Or.inl ?_
          rw [hqp] at hq ⊢
          exact hq.trans heq
        · rw [hqp] at hq ⊢
          exact Or.inr ⟨hlazy, hq⟩
      · have hq : b.mem q = g.2.mem q := Function.update_of_ne hqp ..
        rw [hq]
        exact h.mem q
    · intro v hv hm
      exact (h.black v hv hm).imp_right (Or.imp_right fun hc => hc.grow hlive hv hgrow)
  have hstep : Advance P r a os [e] g (g.1, b) := ⟨hinv, hgrow, Nat.le_refl _⟩
  obtain ⟨g', hrun, hadv, hmem, hmark⟩ := follow_step hinv hlive hos
    (w := a.wordAt p) fun v hv => .field he hi hv
  refine ⟨g', ?_, hstep.trans hadv, ?_, hmark⟩
  · show follow r (redirect g.2.mem (g.2.mem p)) (g.1, { g.2 with
      mem := Function.update g.2.mem p (redirect g.2.mem (g.2.mem p)) }) = some g'
    rw [hval]
    exact hrun
  · rw [hmem]
    exact Function.update_self ..

theorem scan_spec {r : Roots} {lazyAt : Addr → Bool} {a : Arena T} {os : Finset Addr} {e : Addr}
    {g : List Addr × Arena T} (h : MarkInv P r a [e] g) (hlive : Live r lazyAt a)
    (hos : ∀ v, a.IsObj v ↔ v ∈ os) (he : Reachable r a e) (n : ℕ) (hn : n ≤ a.ptrs e) :
    ∃ g', (List.range n).foldlM (scanWord r e) g = some g' ∧ Advance P r a os [e] g g' ∧
      ∀ i < n, g'.2.mem (e + i * T.wordBytes) = a.wordAt (e + i * T.wordBytes) ∧
        ∀ u, PointsTo r (a.wordAt (e + i * T.wordBytes)) u → g'.2.Marked u := by
  induction n with
  | zero => exact ⟨g, rfl, Advance.refl h, fun i hi => absurd hi (Nat.not_lt_zero i)⟩
  | succ n ih =>
    obtain ⟨g₁, hrun, hadv, hdone⟩ := ih (by omega)
    obtain ⟨g₂, hrun', hadv', hmem, hmark⟩ :=
      scanWord_step hadv.inv hlive hos he (by omega : n < a.ptrs e)
    refine ⟨g₂, ?_, hadv.trans hadv', fun i hi => ?_⟩
    · rw [List.range_succ, List.foldlM_append, hrun]
      simp [hrun']
    · by_cases hin : i = n
      · subst hin
        exact ⟨hmem, hmark⟩
      · obtain ⟨hm, hu⟩ := hdone i (by omega)
        refine ⟨hadv'.grow.mem _ hm, fun u hpt => ?_⟩
        exact hadv'.grow.marked u (hlive.isObj (.field he (by omega) hpt)) (hu u hpt)

theorem gc_mark_deeper_spec {r : Roots} {lazyAt : Addr → Bool} {a : Arena T} {os : Finset Addr}
    (hlive : Live r lazyAt a) (hos : ∀ v, a.IsObj v ↔ v ∈ os) (fuel : ℕ)
    {g : List Addr × Arena T} (h : MarkInv P r a [] g) :
    (work os g ≤ fuel → ∃ b, gc_mark_deeper r fuel g = some b) ∧
    ∀ b, gc_mark_deeper r fuel g = some b → MarkInv P r a [] ([], b) ∧ Grow a g.2 b := by
  induction fuel generalizing g with
  | zero =>
    obtain ⟨stack, b⟩ := g
    cases stack with
    | nil =>
      refine ⟨fun _ => ⟨b, rfl⟩, fun b' hb => ?_⟩
      rw [← Option.some_inj.mp hb]
      exact ⟨h, Grow.refl _ _⟩
    | cons e stack =>
      refine ⟨fun hw => ?_, fun b' hb => ?_⟩
      · simp [work] at hw
      · simp [gc_mark_deeper] at hb
  | succ fuel ih =>
    obtain ⟨stack, b⟩ := g
    cases stack with
    | nil =>
      refine ⟨fun _ => ⟨b, rfl⟩, fun b' hb => ?_⟩
      rw [← Option.some_inj.mp hb]
      exact ⟨h, Grow.refl _ _⟩
    | cons e stack =>
      have he := h.grey e List.mem_cons_self
      have hptrs : b.ptrs e = a.ptrs e := h.ptrs e (hlive.isObj he)
      have hpop : MarkInv P r a [e] (stack, b) := by
        refine ⟨h.shape, h.heap, h.ptrs, h.mem, fun x hx => h.grey x (List.mem_cons_of_mem _ hx),
          fun v hv hm => ?_, h.held⟩
        rcases h.black v hv hm with hnil | hstack | hc
        · exact absurd hnil List.not_mem_nil
        · rcases List.mem_cons.mp hstack with rfl | htail
          · exact Or.inl List.mem_cons_self
          · exact Or.inr (Or.inl htail)
        · exact Or.inr (Or.inr hc)
      obtain ⟨g', hrun, hadv, hdone⟩ := scan_spec hpop hlive hos he (a.ptrs e) (Nat.le_refl _)
      have hinv : MarkInv P r a [] g' := by
        have hi := hadv.inv
        refine ⟨hi.shape, hi.heap, hi.ptrs, hi.mem, hi.grey, fun v hv hm => ?_, hi.held⟩
        rcases hi.black v hv hm with hbusy | hrest
        · rw [List.mem_singleton] at hbusy
          subst hbusy
          exact Or.inr (Or.inr fun i hi => hdone i hi)
        · exact Or.inr hrest
      have hstep : gc_mark_deeper r (fuel + 1) (e :: stack, b) = gc_mark_deeper r fuel g' := by
        simp only [gc_mark_deeper, hptrs, hrun]
        rfl
      obtain ⟨htotal, hres⟩ := ih hinv
      rw [hstep]
      refine ⟨fun hw => htotal ?_, fun b' hb => ?_⟩
      · have hle := hadv.work_le
        simp only [work, List.length_cons] at hw hle ⊢
        omega
      · obtain ⟨hfin, hgrow⟩ := hres b' hb
        exact ⟨hfin, hadv.grow.trans hgrow⟩

/-! ### The roots -/

theorem stackWord_step {r : Roots} {lazyAt : Addr → Bool} {a : Arena T} {os : Finset Addr}
    {g : List Addr × Arena T} (h : MarkInv P r a [] g) (hmem : g.2.mem = a.mem)
    (hlive : Live r lazyAt a) (hos : ∀ v, a.IsObj v ↔ v ∈ os) {p : ℕ} (hp : p ∈ r.gcStack) :
    ∃ g', stackWord r g p = some g' ∧ Advance P r a os [] g g' ∧ g'.2.mem = a.mem ∧
      (∀ v, PointsTo r p v → g'.2.Marked v) ∧
      ∀ v, PointsTo r (redirect a.mem p) v → g'.2.Marked v := by
  obtain ⟨hok, hassert⟩ := hlive.stack p hp
  have hreach : ∀ v, PointsTo r (redirect a.mem p) v → Reachable r a v := fun v hv => .stack hp hv
  by_cases hlazy : IS_LAZY p = true
  · have htype := hassert hlazy
    by_cases hhead : IS_LAZY (a.mem (FROM_SPTR p)) = true
    · -- a thunk
      have hsame : redirect a.mem p = p := by
        refine if_neg fun hcond => ?_
        rw [hhead] at hcond
        exact Bool.noConfusion hcond.2
      rw [hsame] at hreach ⊢
      obtain ⟨g', hrun, hadv, hm, hmark⟩ := follow_step h hlive hos hreach
      refine ⟨g', ?_, hadv, hm.trans hmem, hmark, hmark⟩
      simp only [stackWord, hlazy, if_true, htype, ne_eq, not_true_eq_false, if_false, hmem, hhead]
      exact hrun
    · -- a redirection: the cell is marked, its head is followed
      have hhead' : IS_LAZY (a.mem (FROM_SPTR p)) = false := by simpa using hhead
      have hred : redirect a.mem p = a.mem (FROM_SPTR p) := if_pos ⟨htype, hhead'⟩
      rw [hred] at hreach ⊢
      obtain ⟨b, hcell, hadv, hb, hmark⟩ : ∃ b, markCell r (FROM_SPTR p) g.2 = some b ∧
          Advance P r a os [] g (g.1, b) ∧ b.mem = a.mem ∧ ∀ v, PointsTo r p v → b.Marked v := by
        unfold markCell
        by_cases hheap : gc_check_heap r (FROM_SPTR p) = true
        · have hpt : PointsTo r p (FROM_SPTR p) := ⟨(ptype_lazy htype).2, hheap, rfl⟩
          have huse := hok.target _ hpt
          have hnot : ¬ Reachable r a (FROM_SPTR p) := by
            intro hr
            have hl := (hlive.reachable hr).2 (hok.cell htype)
            rw [hhead'] at hl
            exact Bool.noConfusion hl
          obtain ⟨grey, b, hrun, hm, hbm, hadv, -⟩ :=
            set_used_bit_step h hlive hos huse.1.1 (Or.inr ⟨p, hp, hpt⟩)
          refine ⟨b, by rw [if_pos hheap, hrun]; rfl, hadv hnot, hbm.trans hmem, fun v hv => ?_⟩
          rw [← hv.2.2]
          exact hm
        · refine ⟨g.2, by rw [if_neg hheap], Advance.refl h, hmem, fun v hv => ?_⟩
          have htrue := hv.2.1
          rw [← hv.2.2] at htrue
          exact absurd htrue hheap
      obtain ⟨g', hrun, hadv', hm, hmark'⟩ := follow_step hadv.inv hlive hos hreach
      refine ⟨g', ?_, hadv.trans hadv', hm.trans hb, fun v hv => ?_, hmark'⟩
      · simp only [stackWord, hlazy, if_true, htype, ne_eq, not_true_eq_false, if_false, hmem,
          hhead', Bool.false_eq_true, hcell, Option.bind_some]
        exact hrun
      · exact hadv'.grow.marked v (hok.target v hv).1.1 (hmark v hv)
  · have hlazy' : IS_LAZY p = false := by simpa using hlazy
    have hsame : redirect a.mem p = p := redirect_of_not_lazy hlazy'
    rw [hsame] at hreach ⊢
    obtain ⟨g', hrun, hadv, hm, hmark⟩ := follow_step h hlive hos hreach
    refine ⟨g', ?_, hadv, hm.trans hmem, hmark, hmark⟩
    simp only [stackWord, hlazy', Bool.false_eq_true, if_false]
    exact hrun

theorem rootStack_spec {r : Roots} {lazyAt : Addr → Bool} {a : Arena T} {os : Finset Addr}
    (hlive : Live r lazyAt a) (hos : ∀ v, a.IsObj v ↔ v ∈ os) (vs : List Addr)
    (hvs : ∀ v ∈ vs, v ∈ r.rootStack) {g : List Addr × Arena T} (h : MarkInv P r a [] g)
    (hmem : g.2.mem = a.mem) :
    ∃ g', vs.foldlM (fun g s => gc_add_grey r s g) g = some g' ∧ Advance P r a os [] g g' ∧
      g'.2.mem = a.mem ∧ ∀ v ∈ vs, gc_check_heap r v = true → g'.2.Marked v := by
  induction vs generalizing g with
  | nil => exact ⟨g, rfl, Advance.refl h, hmem, fun v hv => absurd hv List.not_mem_nil⟩
  | cons x vs ih =>
    have hx := hvs x List.mem_cons_self
    obtain ⟨g₁, hrun, hadv, hm, hmark⟩ := gc_add_grey_step h hlive hos fun hheap => .root hx hheap
    obtain ⟨g₂, hrun', hadv', hm', hmark'⟩ :=
      ih (fun v hv => hvs v (List.mem_cons_of_mem _ hv)) hadv.inv (hm.trans hmem)
    refine ⟨g₂, ?_, hadv.trans hadv', hm', fun v hv hheap => ?_⟩
    · rw [List.foldlM_cons, hrun]
      exact hrun'
    · rcases List.mem_cons.mp hv with rfl | htail
      · exact hadv'.grow.marked v (hlive.isObj (.root hx hheap)) (hmark hheap)
      · exact hmark' v htail hheap

theorem gcStack_spec {r : Roots} {lazyAt : Addr → Bool} {a : Arena T} {os : Finset Addr}
    (hlive : Live r lazyAt a) (hos : ∀ v, a.IsObj v ↔ v ∈ os) (ps : List ℕ)
    (hps : ∀ p ∈ ps, p ∈ r.gcStack) {g : List Addr × Arena T} (h : MarkInv P r a [] g)
    (hmem : g.2.mem = a.mem) :
    ∃ g', ps.foldlM (stackWord r) g = some g' ∧ Advance P r a os [] g g' ∧ g'.2.mem = a.mem ∧
      ∀ p ∈ ps, (∀ v, PointsTo r p v → g'.2.Marked v) ∧
        ∀ v, PointsTo r (redirect a.mem p) v → g'.2.Marked v := by
  induction ps generalizing g with
  | nil => exact ⟨g, rfl, Advance.refl h, hmem, fun v hv => absurd hv List.not_mem_nil⟩
  | cons p ps ih =>
    have hp := hps p List.mem_cons_self
    obtain ⟨g₁, hrun, hadv, hm, hraw, hred⟩ := stackWord_step h hmem hlive hos hp
    obtain ⟨g₂, hrun', hadv', hm', hmark'⟩ :=
      ih (fun v hv => hps v (List.mem_cons_of_mem _ hv)) hadv.inv hm
    refine ⟨g₂, ?_, hadv.trans hadv', hm', fun q hq => ?_⟩
    · rw [List.foldlM_cons, hrun]
      exact hrun'
    · rcases List.mem_cons.mp hq with rfl | htail
      · refine ⟨fun v hv => ?_, fun v hv => ?_⟩
        · exact hadv'.grow.marked v ((hlive.stack q hp).1.target v hv).1.1 (hraw v hv)
        · exact hadv'.grow.marked v (hlive.isObj (.stack hp hv)) (hred v hv)
      · exact hmark' q htail

/-! ### A whole collection -/

/-- What the marking phase leaves. -/
structure Traced (P : ℕ → Prop) (r : Roots) (a b : Arena T) : Prop where
  inv : MarkInv P r a [] ([], b)
  reachable : ∀ v, Reachable r a v → b.Marked v
  stack : ∀ p ∈ r.gcStack, ∀ v, PointsTo r p v → b.Marked v

theorem clear_markInv {r : Roots} {a : Arena T} {f : Addr → SBlock T.bitsPerUnit}
    (h : Heap P (a.withBlocks f)) (hclear : ∀ u, a.IsObj u → ¬ (a.withBlocks f).Marked u)
    (hptrs : ∀ u, a.IsObj u → (a.withBlocks f).ptrs u = a.ptrs u) {lazyAt : Addr → Bool}
    (hlive : Live r lazyAt a) : MarkInv P r a [] ([], a.withBlocks f) :=
  ⟨⟨f, a.mem, rfl⟩, h, hptrs, fun _ => Or.inl rfl, fun _ he => absurd he List.not_mem_nil,
    fun v hv hm => absurd hm (hclear v (hlive.isObj hv)), fun v hv hm => absurd hm (hclear v hv)⟩

theorem trace_spec {r : Roots} {lazyAt : Addr → Bool} {a b : Arena T} {os : Finset Addr}
    (hlive : Live r lazyAt a) (hos : ∀ v, a.IsObj v ↔ v ∈ os) (hstable : r.stablePtrs = [])
    (h : MarkInv P r a [] ([], b)) (hmem : b.mem = a.mem) :
    ∃ g, markRoots r b = some g ∧
      (∀ fuel ≥ os.card, ∃ c, gc_mark_deeper r fuel g = some c) ∧
      ∀ fuel c, gc_mark_deeper r fuel g = some c → Traced P r a c := by
  obtain ⟨g₁, hrun₁, hadv₁, hmem₁, hroots⟩ :=
    rootStack_spec hlive hos r.rootStack (fun _ hv => hv) h hmem
  obtain ⟨g₂, hrun₂, hadv₂, hmem₂, hstack⟩ :=
    gcStack_spec hlive hos r.gcStack (fun _ hp => hp) hadv₁.inv hmem₁
  refine ⟨g₂, ?_, fun fuel hfuel => ?_, fun fuel c hrun => ?_⟩
  · unfold markRoots
    rw [hrun₁, hstable]
    exact hrun₂
  · have hle := (hadv₁.trans hadv₂).work_le
    have hcard : white os b ≤ os.card := Finset.card_filter_le ..
    simp only [work, List.length_nil] at hle
    exact (gc_mark_deeper_spec hlive hos fuel hadv₂.inv).1 (by simp only [work]; omega)
  · obtain ⟨hinv, hgrow⟩ := (gc_mark_deeper_spec hlive hos fuel hadv₂.inv).2 c hrun
    refine ⟨hinv, fun v hv => ?_, fun p hp v hv => ?_⟩
    · have hall := hadv₂.grow.trans hgrow
      induction hv with
      | root hm hheap => exact hall.marked _ (hlive.isObj (.root hm hheap)) (hroots _ hm hheap)
      | stack hp hpt => exact hgrow.marked _ (hlive.isObj (.stack hp hpt)) ((hstack _ hp).2 _ hpt)
      | field hu hi hpt ih =>
        rcases hinv.black _ hu ih with hbusy | hgrey | hclosed
        · exact absurd hbusy List.not_mem_nil
        · exact absurd hgrey List.not_mem_nil
        · exact (hclosed _ hi).2 _ hpt
    · exact hgrow.marked v ((hlive.stack p hp).1.target v hv).1.1 ((hstack p hp).1 v hv)

/-- No monolithic block before the last one of the list is held. -/
def MonoHeld (r : Roots) (a : Arena T) : Prop :=
  ∀ xs, a.MonoList xs → ∀ m ∈ xs.dropLast, ¬ Held r a (monoAddr T m)

/-- What a collection that starts in `a` and ends in `a'` does. -/
structure Collected (P : ℕ → Prop) (r : Roots) (lazyAt : Addr → Bool) (a a' : Arena T) : Prop where
  heap : Heap P a'
  ok : Ok P a'
  frame : Frame a a'
  live : Live r lazyAt a'
  kept : ∀ v, Held r a v → a'.InUse v
  only : ∀ v, a'.InUse v → a.IsObj v ∧ Held r a v

theorem Live.held {r : Roots} {lazyAt : Addr → Bool} {a : Arena T} (h : Live r lazyAt a) {v : Addr}
    (hv : Held r a v) : a.InUse v := by
  rcases hv with hreach | ⟨p, hp, hpt⟩
  · exact (h.reachable hreach).1
  · exact ((h.stack p hp).1.target v hpt).1

theorem Traced.redirect_eq {r : Roots} {lazyAt : Addr → Bool} {a b : Arena T} (h : Traced P r a b)
    (hlive : Live r lazyAt a) {w : ℕ} (hw : WordOk r lazyAt a w) :
    redirect b.mem w = redirect a.mem w := h.inv.redirect_eq hlive hw.cell

/-- A reachable word of the start and what it has become. -/
theorem Traced.field {r : Roots} {lazyAt : Addr → Bool} {a b : Arena T} (h : Traced P r a b)
    (hlive : Live r lazyAt a) {u : Addr} (hu : Reachable r a u) {i : ℕ} (hi : i < a.ptrs u) :
    b.mem (u + i * T.wordBytes) = a.wordAt (u + i * T.wordBytes) ∧
      redirect b.mem (b.mem (u + i * T.wordBytes)) = a.wordAt (u + i * T.wordBytes) := by
  have hok := hlive.fields u hu i hi
  rcases h.inv.black u hu (h.reachable u hu) with hbusy | hgrey | hclosed
  · exact absurd hbusy List.not_mem_nil
  · exact absurd hgrey List.not_mem_nil
  · have hmem := (hclosed i hi).1
    exact ⟨hmem, scan_value h.inv hlive hok⟩

theorem Traced.back {r : Roots} {lazyAt : Addr → Bool} {a b : Arena T} (h : Traced P r a b)
    (hlive : Live r lazyAt a) {v : Addr} (hv : Reachable r b v) : Reachable r a v := by
  induction hv with
  | root hm hheap => exact .root hm hheap
  | stack hp hpt =>
    rw [h.redirect_eq hlive (hlive.stack _ hp).1] at hpt
    exact .stack hp hpt
  | field hu hi hpt ih =>
    rw [h.inv.ptrs _ (hlive.isObj ih)] at hi
    rw [(h.field hlive ih hi).2] at hpt
    exact .field ih hi hpt

theorem Traced.live {r : Roots} {lazyAt : Addr → Bool} {a b : Arena T} (h : Traced P r a b)
    (hlive : Live r lazyAt a) : Live r lazyAt b := by
  have huse : ∀ v, Reachable r a v → b.InUse v := fun v hv =>
    ⟨(h.inv.isObj v).mpr (hlive.isObj hv), h.reachable v hv⟩
  refine ⟨fun p hp => ?_, fun v hv hheap => ?_, fun p hp => ⟨⟨fun v hv => ?_, ?_, fun v hv => ?_⟩,
    (hlive.stack p hp).2⟩, fun u hu i hi => ?_⟩
  · have hold := hlive.heads p hp
    rcases h.inv.mem p with heq | ⟨hlazy, -⟩
    · have heq' : b.mem p = a.mem p := heq
      rw [heq']
      exact hold
    · exact absurd hlazy hold
  · exact ⟨huse v (.root hv hheap), (hlive.roots v hv hheap).2⟩
  · have hold := (hlive.stack p hp).1.target v hv
    exact ⟨⟨(h.inv.isObj v).mpr hold.1.1, h.stack p hp v hv⟩, hold.2⟩
  · exact (hlive.stack p hp).1.cell
  · rw [h.redirect_eq hlive (hlive.stack p hp).1] at hv ⊢
    exact ⟨huse v (.stack hp hv), ((hlive.stack p hp).1.redirected v hv).2⟩
  · have hu' := h.back hlive hu
    have hi' : i < a.ptrs u := by
      rwa [← h.inv.ptrs u (hlive.isObj hu')]
    have hok := hlive.fields u hu' i hi'
    obtain ⟨hmem, hred⟩ := h.field hlive hu' hi'
    have hpt : ∀ v, PointsTo r (a.wordAt (u + i * T.wordBytes)) v →
        b.InUse v ∧ lazyAt v = IS_LAZY (a.wordAt (u + i * T.wordBytes)) := fun v hv =>
      ⟨huse v (.field hu' hi' hv), (hok.redirected v hv).2⟩
    refine ⟨fun v hv => ?_, fun hw => ?_, fun v hv => ?_⟩
    · rw [hmem] at hv ⊢
      exact hpt v hv
    · rw [hmem] at hw ⊢
      unfold wordAt at hw ⊢
      rcases redirect_cases a.mem (a.mem (u + i * T.wordBytes)) with heq | ⟨-, -, hnot⟩
      · rw [heq] at hw ⊢
        exact hok.cell hw
      · rw [(ptype_lazy hw).1] at hnot
        exact Bool.noConfusion hnot
    · rw [hred] at hv ⊢
      exact hpt v hv

theorem Live.swept {r : Roots} {lazyAt : Addr → Bool} {a a' : Arena T} (h : Live r lazyAt a)
    (hblock : a'.block = a.block) (hmem : a'.mem = a.mem)
    (huse : ∀ v, a'.InUse v ↔ a.InUse v) : Live r lazyAt a' := by
  have hptrs : a'.ptrs = a.ptrs := by
    unfold ptrs
    rw [hblock]
  have hword : ∀ w, WordOk r lazyAt a w → WordOk r lazyAt a' w := by
    intro w hw
    refine ⟨fun v hv => ?_, hw.cell, fun v hv => ?_⟩
    · exact ⟨(huse v).mpr (hw.target v hv).1, (hw.target v hv).2⟩
    · rw [hmem] at hv ⊢
      exact ⟨(huse v).mpr (hw.redirected v hv).1, (hw.redirected v hv).2⟩
  refine ⟨?_, fun v hv hheap => ?_, fun p hp => ⟨hword p (h.stack p hp).1, (h.stack p hp).2⟩,
    fun u hu i hi => ?_⟩
  · rw [hmem]
    exact h.heads
  · exact ⟨(huse v).mpr (h.roots v hv hheap).1, (h.roots v hv hheap).2⟩
  · unfold Reachable at hu
    rw [hmem, hptrs] at hu
    rw [hptrs] at hi
    rw [hmem]
    exact hword _ (h.fields u hu i hi)

theorem gc_spec (hP : ∀ n, P n → n % T.bitsPerUnit ≠ 0) {r : Roots} {lazyAt : Addr → Bool}
    {a : Arena T} (h : Heap P a) (hlive : Live r lazyAt a) (hstable : r.stablePtrs = [])
    (hmono : MonoHeld r a) {fuel : ℕ} {a' : Arena T} (hrun : gc_perform_gc fuel r a = some a') :
    Collected P r lazyAt a a' := by
  unfold gc_perform_gc at hrun
  cases hc : clear_used_bits fuel a with
  | none => simp [hc] at hrun
  | some b =>
    obtain ⟨f, rfl, hheap, hclear, hptrs⟩ := clear_heap hP h hc
    obtain ⟨os, hos⟩ := objects_finite h
    obtain ⟨g, hroots, -, htrace⟩ :=
      trace_spec hlive hos hstable (clear_markInv hheap hclear hptrs hlive) rfl
    cases hm : gc_mark_deeper r fuel g with
    | none => simp [hc, hroots, hm] at hrun
    | some c =>
      simp only [hc, hroots, hm, Option.bind_eq_bind, Option.bind_some] at hrun
      have htr := htrace fuel c hm
      obtain ⟨fb, fm, hshape⟩ := htr.inv.shape
      have hmonoOk : c.MonoOk := by
        intro xs hxs m hin hmark
        have hxs' : a.MonoList xs := by
          have hc' : c = { a with block := fb, mem := fm } := hshape
          rw [hc'] at hxs
          exact hxs
        have hobj : a.IsObj (monoAddr T m) :=
          Or.inr ⟨xs, hxs', m, List.dropLast_subset _ hin, rfl⟩
        exact hmono xs hxs' m hin (htr.inv.held _ hobj hmark)
      obtain ⟨hheap', hok, hframe, hblock, hmem, huse⟩ := cleanup_heap htr.inv.heap hmonoOk hrun
      have hframe' : Frame a a' := by
        have hc' : c = { a with block := fb, mem := fm } := hshape
        rw [hc'] at hframe
        exact ⟨hframe.caches, hframe.static, hframe.megablocks, hframe.current, hframe.mono⟩
      refine ⟨hheap', hok, hframe', (htr.live hlive).swept hblock hmem huse, fun v hv => ?_,
        fun v hv => ?_⟩
      · refine (huse v).mpr ⟨(htr.inv.isObj v).mpr (hlive.held hv).1, ?_⟩
        rcases hv with hreach | ⟨p, hp, hpt⟩
        · exact htr.reachable v hreach
        · exact htr.stack p hp v hpt
      · obtain ⟨hobj, hmark⟩ := (huse v).mp hv
        have hobj' := (htr.inv.isObj v).mp hobj
        exact ⟨hobj', htr.inv.held v hobj' hmark⟩

theorem gc_total (hP : ∀ n, P n → n % T.bitsPerUnit ≠ 0) {r : Roots} {lazyAt : Addr → Bool}
    {a : Arena T} (h : Heap P a) (hlive : Live r lazyAt a) (hstable : r.stablePtrs = []) :
    ∃ N, ∀ fuel ≥ N, ∃ a', gc_perform_gc fuel r a = some a' := by
  obtain ⟨xs, hxs, -⟩ := h.mono
  obtain ⟨os, hos⟩ := objects_finite h
  refine ⟨xs.length + os.card, fun fuel hfuel => ?_⟩
  have hcl := MonoArena.clear_used_bits_eq hxs (by omega : xs.length ≤ fuel)
  obtain ⟨b, hc⟩ : ∃ b, clear_used_bits fuel a = some b :=
    ⟨a.caches.foldl clearCache { a with toMonoArena := a.setAll 0#_ xs },
      by simp [clear_used_bits, hcl]⟩
  obtain ⟨f, rfl, hheap, hclear, hptrs⟩ := clear_heap hP h hc
  obtain ⟨g, hroots, htotal, htrace⟩ :=
    trace_spec hlive hos hstable (clear_markInv hheap hclear hptrs hlive) rfl
  obtain ⟨c, hm⟩ := htotal fuel (by omega)
  obtain ⟨fb, fm, hshape⟩ := (htrace fuel c hm).inv.shape
  have hxs' : c.MonoList xs := by
    have hc' : c = { a with block := fb, mem := fm } := hshape
    rw [hc']
    exact hxs
  have hsweep := MonoArena.s_cleanup_blocks_eq hxs' (by omega : xs.length ≤ fuel)
  exact ⟨c.caches.foldl cleanupCache { c with toMonoArena := c.toMonoArena.swept xs },
    by simp [gc_perform_gc, hc, hroots, hm, s_cleanup_blocks, hsweep]⟩

end Arena

end Jhc.Rts
