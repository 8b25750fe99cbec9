import Jhc.Rts.Objects

/-!
# Marking (rts/gc_jgc.c:33-203, jhc_rts.h:28-41)

Smart pointers, the roots, the grey stack and `gc_perform_gc`. A word is a
natural number whose two low bits are its tag. The build is the default one, in
which the grey stack is traced once, after all roots.
-/

namespace Jhc.Rts

/-! ### Smart pointers (jhc_rts.h:28-41) -/

def P_LAZY : ℕ := 1

def P_VALUE : ℕ := 2

def P_FUNC : ℕ := 3

def IS_LAZY (x : ℕ) : Bool := x % 2 == 1

def IS_PTR (x : ℕ) : Bool := x / 2 % 2 == 0

def FROM_SPTR (x : ℕ) : Addr := x - x % 4

def GET_PTYPE (x : ℕ) : ℕ := x % 4

theorem ptype_lazy {x : ℕ} (h : GET_PTYPE x = P_LAZY) : IS_LAZY x = true ∧ IS_PTR x = true := by
  simp only [GET_PTYPE, P_LAZY, IS_LAZY, IS_PTR, beq_iff_eq] at *
  omega

theorem ptype_of_lazy {x : ℕ} (hlazy : IS_LAZY x = true) (hptr : IS_PTR x = true) :
    GET_PTYPE x = P_LAZY := by
  simp only [GET_PTYPE, P_LAZY, IS_LAZY, IS_PTR, beq_iff_eq] at *
  omega

/-- The word that the collector puts in place of `w`: the head of a lazy location
that has become a redirection. -/
def redirect (mem : Addr → ℕ) (w : ℕ) : ℕ :=
  if GET_PTYPE w = P_LAZY ∧ IS_LAZY (mem (FROM_SPTR w)) = false then mem (FROM_SPTR w) else w

theorem redirect_cases (mem : Addr → ℕ) (w : ℕ) :
    redirect mem w = w ∨ GET_PTYPE w = P_LAZY ∧ redirect mem w = mem (FROM_SPTR w) ∧
      IS_LAZY (redirect mem w) = false := by
  unfold redirect
  split_ifs with h
  · exact Or.inr ⟨h.1, rfl, h.2⟩
  · exact Or.inl rfl

theorem redirect_of_not_lazy {mem : Addr → ℕ} {w : ℕ} (h : IS_LAZY w = false) :
    redirect mem w = w := by
  refine if_neg fun hcond => ?_
  rw [(ptype_lazy hcond.1).1] at h
  exact Bool.noConfusion h

theorem redirect_congr {mem mem' : Addr → ℕ} {w : ℕ}
    (h : GET_PTYPE w = P_LAZY → mem' (FROM_SPTR w) = mem (FROM_SPTR w)) :
    redirect mem' w = redirect mem w := by
  unfold redirect
  by_cases hw : GET_PTYPE w = P_LAZY
  · rw [h hw]
  · simp [hw]

/-! ### Roots and the grey stack -/

/-- The range of the static area, `root_stack`, `root_StablePtrs` (each struct
with its contents) and the words of the GC stack. -/
structure Roots where
  nhStart : ℕ
  nhEnd : ℕ
  rootStack : List Addr
  stablePtrs : List (Addr × ℕ)
  gcStack : List ℕ

def Roots.push (r : Roots) (w : ℕ) : Roots := { r with gcStack := w :: r.gcStack }

def gc_check_heap (r : Roots) (s : Addr) : Bool := s < r.nhStart || s > r.nhEnd

namespace Arena

variable {T : Target}

def gc_add_grey (r : Roots) (s : Addr) (g : List Addr × Arena T) : Option (List Addr × Arena T) :=
  if gc_check_heap r s then
    (s_set_used_bit s g.2).map fun (grey, a) => (if grey then s :: g.1 else g.1, a)
  else some g

def follow (r : Roots) (w : ℕ) (g : List Addr × Arena T) : Option (List Addr × Arena T) :=
  if IS_PTR w then gc_add_grey r (FROM_SPTR w) g else some g

/-- One turn of the inner loop of `gc_mark_deeper`. -/
def scanWord (r : Roots) (e : Addr) (g : List Addr × Arena T) (i : ℕ) :
    Option (List Addr × Arena T) :=
  let p := e + i * T.wordBytes
  let w := redirect g.2.mem (g.2.mem p)
  follow r w (g.1, { g.2 with mem := Function.update g.2.mem p w })

/-- `gc_mark_deeper`. `ptrs` is `u.m.num_ptrs` of a monolithic block and
`u.pi.num_ptrs` of any other. -/
def gc_mark_deeper (r : Roots) : ℕ → List Addr × Arena T → Option (Arena T)
  | _, ([], a) => some a
  | 0, (_ :: _, _) => none
  | fuel + 1, (e :: stack, a) => do
    let g ← (List.range (a.ptrs e)).foldlM (scanWord r e) (stack, a)
    gc_mark_deeper r fuel g

/-- The cell of a redirection on the GC stack is only marked. -/
def markCell (r : Roots) (s : Addr) (a : Arena T) : Option (Arena T) :=
  if gc_check_heap r s then (s_set_used_bit s a).map Prod.snd else some a

/-- One word of the GC stack, with the assertion on its tag. -/
def stackWord (r : Roots) (g : List Addr × Arena T) (p : ℕ) : Option (List Addr × Arena T) :=
  if IS_LAZY p then
    if GET_PTYPE p ≠ P_LAZY then none
    else if IS_LAZY (g.2.mem (FROM_SPTR p)) then follow r p g
    else (markCell r (FROM_SPTR p) g.2).bind fun a => follow r (g.2.mem (FROM_SPTR p)) (g.1, a)
  else follow r p g

/-- The structs of the stable pointers are pushed, not their contents. -/
def markRoots (r : Roots) (a : Arena T) : Option (List Addr × Arena T) := do
  let g ← r.rootStack.foldlM (fun g s => gc_add_grey r s g) ([], a)
  let g ← r.stablePtrs.foldlM (fun g sp => gc_add_grey r sp.1 g) g
  r.gcStack.foldlM (stackWord r) g

def gc_perform_gc (fuel : ℕ) (r : Roots) (a : Arena T) : Option (Arena T) := do
  let a ← clear_used_bits fuel a
  let g ← markRoots r a
  let a ← gc_mark_deeper r fuel g
  s_cleanup_blocks fuel a

/-! ### Reachability -/

def PointsTo (r : Roots) (w : ℕ) (v : Addr) : Prop :=
  IS_PTR w = true ∧ gc_check_heap r v = true ∧ FROM_SPTR w = v

/-- Objects reachable from `root_stack` and the GC stack, where a lazy pointer to
a redirection counts as the word it redirects to. -/
inductive Reaches (T : Target) (r : Roots) (mem ptrs : Addr → ℕ) : Addr → Prop where
  | root {v : Addr} : v ∈ r.rootStack → gc_check_heap r v = true → Reaches T r mem ptrs v
  | stack {p : ℕ} {v : Addr} : p ∈ r.gcStack → PointsTo r (redirect mem p) v →
      Reaches T r mem ptrs v
  | field {u v : Addr} {i : ℕ} : Reaches T r mem ptrs u → i < ptrs u →
      PointsTo r (redirect mem (mem (u + i * T.wordBytes))) v → Reaches T r mem ptrs v

abbrev Reachable (r : Roots) (a : Arena T) (v : Addr) : Prop := Reaches T r a.mem a.ptrs v

/-- Reachable, or the cell of a redirection that is on the GC stack. -/
def Held (r : Roots) (a : Arena T) (v : Addr) : Prop :=
  Reachable r a v ∨ ∃ p ∈ r.gcStack, PointsTo r p v

/-- An object in use: an allocated entry or a monolithic block on the list. -/
def InUse (a : Arena T) (v : Addr) : Prop := a.IsObj v ∧ a.Marked v

/-- What the mutator keeps of a word that it can reach; `lazyAt` tells the lazy
locations. No location is pointed to both as lazy and as in weak head normal form. -/
structure WordOk (r : Roots) (lazyAt : Addr → Bool) (a : Arena T) (w : ℕ) : Prop where
  target : ∀ v, PointsTo r w v → a.InUse v ∧ lazyAt v = IS_LAZY w
  cell : GET_PTYPE w = P_LAZY → lazyAt (FROM_SPTR w) = true
  redirected : ∀ v, PointsTo r (redirect a.mem w) v →
    a.InUse v ∧ lazyAt v = IS_LAZY (redirect a.mem w)

/-- No reachable word dangles, and no redirection is to a lazy location. -/
structure Live (r : Roots) (lazyAt : Addr → Bool) (a : Arena T) : Prop where
  heads : ∀ p, lazyAt p = true → GET_PTYPE (a.mem p) ≠ P_LAZY
  roots : ∀ v ∈ r.rootStack, gc_check_heap r v = true → a.InUse v ∧ lazyAt v = false
  stack : ∀ p ∈ r.gcStack, WordOk r lazyAt a p ∧ (IS_LAZY p = true → GET_PTYPE p = P_LAZY)
  fields : ∀ u, Reachable r a u → ∀ i < a.ptrs u, WordOk r lazyAt a (a.mem (u + i * T.wordBytes))

theorem Live.reachable {r : Roots} {lazyAt : Addr → Bool} {a : Arena T} (h : Live r lazyAt a)
    {v : Addr} (hv : Reachable r a v) :
    a.InUse v ∧ (lazyAt v = true → IS_LAZY (a.mem v) = true) := by
  have hword : ∀ w, WordOk r lazyAt a w → PointsTo r (redirect a.mem w) v →
      a.InUse v ∧ (lazyAt v = true → IS_LAZY (a.mem v) = true) := by
    intro w hw hpt
    obtain ⟨huse, hlazy⟩ := hw.redirected v hpt
    refine ⟨huse, fun hl => ?_⟩
    rw [hlazy] at hl
    rcases redirect_cases a.mem w with heq | ⟨-, -, hnot⟩
    · rw [heq] at hl hpt
      by_contra hhead
      have hptype := ptype_of_lazy hl hpt.1
      have hcell : IS_LAZY (a.mem (FROM_SPTR w)) = false := by
        rw [hpt.2.2]
        simpa using hhead
      have hred : redirect a.mem w = a.mem (FROM_SPTR w) := if_pos ⟨hptype, hcell⟩
      rw [heq] at hred
      rw [hred, hcell] at hl
      exact Bool.noConfusion hl
    · rw [hnot] at hl
      exact Bool.noConfusion hl
  cases hv with
  | root hmem hheap =>
    obtain ⟨huse, hlazy⟩ := h.roots v hmem hheap
    refine ⟨huse, fun hl => ?_⟩
    rw [hlazy] at hl
    exact Bool.noConfusion hl
  | stack hp hpt => exact hword _ (h.stack _ hp).1 hpt
  | field hu hi hpt => exact hword _ (h.fields _ hu _ hi) hpt

end Arena

end Jhc.Rts
