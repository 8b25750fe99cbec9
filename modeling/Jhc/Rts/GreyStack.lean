import Jhc.Lib.Ensures
import Jhc.Rts.Gc

/-!
# The grey stack (rts/gc_jgc.c:43-74, 85-186)

The mark stack with the size that `stack_check` has allocated for it. A push at
`ptr` equal to `size` writes beyond the array; here it ends the run with
`overflow`. `saving` is the build with `_JHC_JGC_SAVING_MALLOC_HEAP`, which empties
the stack after every root.
-/

namespace Jhc.Rts
open Jhc.Lib

/-- `struct stack`: `ptr` is the number of `items`. -/
structure GreyStack where
  size : ℕ
  items : List Addr

/-- How a collection can end early: a push beyond the array, a division by zero
or failed assertion, or a marking loop that has not ended. -/
inductive Fault where
  | overflow | crash | outOfFuel
  deriving DecidableEq

def EMPTY_STACK : GreyStack := ⟨0, []⟩

def JHC_JGC_STACKGROW : ℕ := 1024

namespace GreyStack

def stack_grow (s : GreyStack) (grow : ℕ) : GreyStack := { s with size := s.size + grow }

def stack_check (s : GreyStack) (n : ℕ) : GreyStack :=
  if s.size - s.items.length < n then s.stack_grow (n + JHC_JGC_STACKGROW) else s

def push (s : GreyStack) (e : Addr) : Except Fault GreyStack :=
  if s.items.length < s.size then .ok { s with items := e :: s.items } else .error .overflow

/-- The stack has room for `n` more entries. -/
def Room (s : GreyStack) (n : ℕ) : Prop := s.items.length + n ≤ s.size

theorem Room.mono {s : GreyStack} {n m : ℕ} (h : s.Room n) (hm : m ≤ n) : s.Room m := by
  unfold Room at h ⊢
  omega

theorem stack_check_items (s : GreyStack) (n : ℕ) : (s.stack_check n).items = s.items := by
  unfold stack_check
  split_ifs
  · rfl
  · rfl

/-- A check makes the room that it is asked for. -/
theorem stack_check_room {s : GreyStack} (h : s.Room 0) (n : ℕ) : (s.stack_check n).Room n := by
  unfold Room at h ⊢
  rw [stack_check_items]
  unfold stack_check
  split_ifs with hlt
  · show s.items.length + n ≤ s.size + (n + JHC_JGC_STACKGROW)
    omega
  · omega

end GreyStack

namespace Arena
open GreyStack

variable {T : Target}

/-! ### Marking with a stack of limited size -/

def optionOr {α : Type} (f : Fault) : Option α → Except Fault α
  | some a => .ok a
  | none => .error f

/-- The test of `gc_add_grey`. -/
def shade (r : Roots) (s : Addr) (a : Arena T) : Option (Bool × Arena T) :=
  if gc_check_heap r s then s_set_used_bit s a else some (false, a)

namespace Sized

def gc_add_grey (r : Roots) (s : Addr) (g : GreyStack × Arena T) :
    Except Fault (GreyStack × Arena T) := do
  let (grey, a) ← optionOr .crash (shade r s g.2)
  if grey then
    let st ← g.1.push s
    return (st, a)
  else return (g.1, a)

def follow (r : Roots) (w : ℕ) (g : GreyStack × Arena T) : Except Fault (GreyStack × Arena T) :=
  if IS_PTR w then gc_add_grey r (FROM_SPTR w) g else .ok g

def scanWord (r : Roots) (e : Addr) (g : GreyStack × Arena T) (i : ℕ) :
    Except Fault (GreyStack × Arena T) :=
  let p := e + i * T.wordBytes
  let w := redirect g.2.mem (g.2.mem p)
  follow r w (g.1, { g.2 with mem := Function.update g.2.mem p w })

def gc_mark_deeper (r : Roots) : ℕ → GreyStack × Arena T → Except Fault (GreyStack × Arena T)
  | _, (⟨size, []⟩, a) => .ok (⟨size, []⟩, a)
  | 0, (⟨_, _ :: _⟩, _) => .error .outOfFuel
  | fuel + 1, (⟨size, e :: rest⟩, a) => do
    let s := stack_check ⟨size, rest⟩ (a.ptrs e)
    let g ← (List.range (a.ptrs e)).foldlM (scanWord r e) (s, a)
    gc_mark_deeper r fuel g

/-- `DO_GC_MARK_DEEPER`. -/
def drain (saving : Bool) (fuel : ℕ) (r : Roots) (g : GreyStack × Arena T) :
    Except Fault (GreyStack × Arena T) :=
  if saving then gc_mark_deeper r fuel g else .ok g

def stackWord (r : Roots) (g : GreyStack × Arena T) (p : ℕ) :
    Except Fault (GreyStack × Arena T) :=
  if IS_LAZY p then
    if GET_PTYPE p ≠ P_LAZY then .error .crash
    else if IS_LAZY (g.2.mem (FROM_SPTR p)) then follow r p g
    else do
      let a ← optionOr .crash (markCell r (FROM_SPTR p) g.2)
      follow r (g.2.mem (FROM_SPTR p)) (g.1, a)
  else follow r p g

/-- The loops over `root_stack` and `root_StablePtrs`: the check is made for the first. -/
def pushRoots (saving : Bool) (fuel : ℕ) (r : Roots) (a : Arena T) :
    Except Fault (GreyStack × Arena T) := do
  let s := EMPTY_STACK.stack_check r.rootStack.length
  let g ← r.rootStack.foldlM (fun g s => gc_add_grey r s g >>= drain saving fuel r) (s, a)
  r.stablePtrs.foldlM (fun g sp => gc_add_grey r sp.1 g >>= drain saving fuel r) g

def markRoots (saving : Bool) (fuel : ℕ) (r : Roots) (a : Arena T) :
    Except Fault (GreyStack × Arena T) := do
  let g ← pushRoots saving fuel r a
  let s := g.1.stack_check (if saving then 1 else r.gcStack.length)
  r.gcStack.foldlM (fun g p => stackWord r g p >>= drain saving fuel r) (s, g.2)

def gc_perform_gc (saving : Bool) (fuel : ℕ) (r : Roots) (a : Arena T) : Except Fault (Arena T) := do
  let a ← optionOr .outOfFuel (clear_used_bits fuel a)
  let g ← markRoots saving fuel r a
  let g ← gc_mark_deeper r fuel g
  optionOr .outOfFuel (s_cleanup_blocks fuel g.2)

/-! ### Each check bounds the pushes after it -/

/-- No push is made beyond the array. -/
def Inside {α : Type} (r : Except Fault α) (P : α → Prop) : Prop := Avoids (· = .overflow) r P

/-- The stack of `g` was allocated at least `size` entries and has room for `n`. -/
def Has (size n : ℕ) (g : GreyStack × Arena T) : Prop := size ≤ g.1.size ∧ g.1.Room n

theorem gc_add_grey_room (r : Roots) (s : Addr) {size n : ℕ} {g : GreyStack × Arena T}
    (h : Has size (n + 1) g) : Inside (gc_add_grey r s g) (Has size n) := by
  obtain ⟨hsize, hroom⟩ := h
  unfold gc_add_grey
  cases hshade : shade r s g.2 with
  | none => exact fun hbad => Fault.noConfusion hbad
  | some res =>
    obtain ⟨grey, a⟩ := res
    cases grey with
    | false => exact ⟨hsize, hroom.mono (by omega)⟩
    | true =>
      unfold Room at hroom
      have hlt : g.1.items.length < g.1.size := by omega
      have hpush : g.1.push s = .ok ⟨g.1.size, s :: g.1.items⟩ := if_pos hlt
      show Inside (g.1.push s >>= fun st => .ok (st, a)) (Has size n)
      rw [hpush]
      refine ⟨hsize, ?_⟩
      show g.1.items.length + 1 + n ≤ g.1.size
      omega

theorem follow_room (r : Roots) (w : ℕ) {size n : ℕ} {g : GreyStack × Arena T}
    (h : Has size (n + 1) g) : Inside (follow r w g) (Has size n) := by
  unfold follow
  split_ifs
  · exact gc_add_grey_room r _ h
  · exact ⟨h.1, h.2.mono (by omega)⟩

theorem scanWord_room (r : Roots) (e : Addr) (i : ℕ) {size n : ℕ} {g : GreyStack × Arena T}
    (h : Has size (n + 1) g) : Inside (scanWord r e g i) (Has size n) :=
  follow_room r _ h

theorem stackWord_room (r : Roots) (p : ℕ) {size n : ℕ} {g : GreyStack × Arena T}
    (h : Has size (n + 1) g) : Inside (stackWord r g p) (Has size n) := by
  unfold stackWord
  split_ifs
  · exact fun hbad => Fault.noConfusion hbad
  · exact follow_room r _ h
  · cases markCell r (FROM_SPTR p) g.2 with
    | none => exact fun hbad => Fault.noConfusion hbad
    | some a => exact follow_room r _ h
  · exact follow_room r _ h

/-- The loop checks for the pointers of each object before it looks at them. -/
theorem gc_mark_deeper_room (r : Roots) (fuel : ℕ) {size : ℕ} {g : GreyStack × Arena T}
    (h : Has size 0 g) :
    Inside (gc_mark_deeper r fuel g) fun g' => Has size 0 g' ∧ g'.1.items = [] := by
  induction fuel generalizing g with
  | zero =>
    obtain ⟨⟨size', items⟩, a⟩ := g
    cases items with
    | nil => exact ⟨h, rfl⟩
    | cons e rest => exact fun hbad => Fault.noConfusion hbad
  | succ fuel ih =>
    obtain ⟨⟨size', items⟩, a⟩ := g
    cases items with
    | nil => exact ⟨h, rfl⟩
    | cons e rest =>
      obtain ⟨hsize, hroom⟩ := h
      have hrest : Room ⟨size', rest⟩ 0 := by
        have hlen : rest.length + 1 + 0 ≤ size' := hroom
        show rest.length + 0 ≤ size'
        omega
      have hcheck := stack_check_room hrest (a.ptrs e)
      have hgrow : size ≤ (stack_check ⟨size', rest⟩ (a.ptrs e)).size := by
        unfold stack_check
        split_ifs
        · exact hsize.trans (Nat.le_add_right _ _)
        · exact hsize
      refine Avoids.bind ?_ fun g hg => ih hg
      refine Avoids.foldlM (fun is g => Has size is.length g)
        (fun i is g hg => scanWord_room r e i hg) ?_
      rw [List.length_range]
      exact ⟨hgrow, hcheck⟩

theorem drain_room (saving : Bool) (fuel : ℕ) (r : Roots) {size n : ℕ} {g : GreyStack × Arena T}
    (h : Has size n g) (hn : n ≤ size) : Inside (drain saving fuel r g) (Has size n) := by
  unfold drain
  split_ifs
  · refine Avoids.mono (gc_mark_deeper_room r fuel ⟨h.1, h.2.mono (Nat.zero_le n)⟩) ?_
    rintro ⟨⟨size', items⟩, a⟩ ⟨⟨hsize, -⟩, hnil⟩
    have hitems : items = [] := hnil
    subst hitems
    refine ⟨hsize, ?_⟩
    show 0 + n ≤ size'
    have hle : size ≤ size' := hsize
    omega
  · exact h

/-! ### The loops over the roots -/

/-- The roots of the list that `s_set_used_bit` says are to be scanned, up to a crash. -/
def greys (r : Roots) : List Addr → Arena T → ℕ
  | [], _ => 0
  | s :: ss, a =>
    match shade r s a with
    | none => 0
    | some (grey, a) => grey.toNat + greys r ss a

/-- What the check before the first loop allocates. -/
def rootRoom (r : Roots) : ℕ :=
  if r.rootStack.length = 0 then 0 else r.rootStack.length + JHC_JGC_STACKGROW

attribute [local grind =] greys

theorem rootRoom_eq (r : Roots) :
    EMPTY_STACK.stack_check r.rootStack.length = ⟨rootRoom r, []⟩ := by
  unfold stack_check rootRoom EMPTY_STACK
  by_cases hzero : r.rootStack.length = 0
  · simp [hzero]
  · have hpos : 0 - ([] : List Addr).length < r.rootStack.length := by
      rw [List.length_nil]
      omega
    simp only [if_pos hpos, if_neg hzero, stack_grow, Nat.zero_add]

/-- The roots and stable pointers as far as they are pushed on the stack. -/
def RootsFit (saving : Bool) (r : Roots) (a : Arena T) : Prop :=
  if saving then r.rootStack ≠ [] ∨ greys r (r.stablePtrs.map Prod.fst) a = 0
  else greys r (r.rootStack ++ r.stablePtrs.map Prod.fst) a ≤ rootRoom r

theorem gc_add_grey_none {r : Roots} {s : Addr} {g : GreyStack × Arena T}
    (h : shade r s g.2 = none) : gc_add_grey r s g = .error .crash := by
  unfold gc_add_grey
  rw [h]
  rfl

theorem gc_add_grey_false {r : Roots} {s : Addr} {g : GreyStack × Arena T} {a : Arena T}
    (h : shade r s g.2 = some (false, a)) : gc_add_grey r s g = .ok (g.1, a) := by
  unfold gc_add_grey
  rw [h]
  rfl

theorem gc_add_grey_true {r : Roots} {s : Addr} {g : GreyStack × Arena T} {a : Arena T}
    (h : shade r s g.2 = some (true, a)) :
    gc_add_grey r s g = (g.1.push s).map fun st => (st, a) := by
  unfold gc_add_grey
  rw [h]
  show (g.1.push s >>= fun st => .ok (st, a)) = _
  cases g.1.push s with
  | ok st => rfl
  | error f => rfl

/-- Without draining, the pushes are exactly the grey roots. -/
theorem pushes_overflow (r : Roots) (l : List Addr) (size : ℕ) (items : List Addr) (a : Arena T)
    (h : items.length ≤ size) :
    l.foldlM (fun g s => gc_add_grey r s g) (⟨size, items⟩, a) = .error .overflow ↔
      size < items.length + greys r l a := by
  induction l generalizing items a with
  | nil =>
    refine iff_of_false (fun hbad => ?_) (by simpa [greys] using h)
    have hok : (.ok (⟨size, items⟩, a) : Except Fault (GreyStack × Arena T)) = .error .overflow :=
      hbad
    cases hok
  | cons s ss ih =>
    rw [List.foldlM_cons]
    cases hshade : shade r s a with
    | none =>
      rw [gc_add_grey_none hshade]
      refine iff_of_false (fun hbad => ?_) (by simpa [greys, hshade] using h)
      exact Fault.noConfusion (Except.error.inj hbad)
    | some res =>
      obtain ⟨grey, a'⟩ := res
      cases grey with
      | false =>
        rw [gc_add_grey_false hshade]
        have hgreys : greys r (s :: ss) a = greys r ss a' := by simp [greys, hshade]
        rw [hgreys]
        exact ih items a' h
      | true =>
        have hgreys : greys r (s :: ss) a = 1 + greys r ss a' := by simp [greys, hshade]
        rw [gc_add_grey_true hshade, hgreys]
        by_cases hlt : items.length < size
        · have hpush : push ⟨size, items⟩ s = .ok ⟨size, s :: items⟩ := if_pos hlt
          rw [hpush]
          show ss.foldlM (fun g s => gc_add_grey r s g) (⟨size, s :: items⟩, a') = _ ↔ _
          rw [ih (s :: items) a' hlt, List.length_cons]
          omega
        · have hpush : push ⟨size, items⟩ s = .error .overflow := if_neg hlt
          rw [hpush]
          refine iff_of_true rfl ?_
          omega

/-- What holds where a routine ends without a fault. -/
def Ends {α : Type} (r : Except Fault α) (P : α → Prop) : Prop := Avoids (fun _ => False) r P

/-- A push that is made leaves the stack inside its array. -/
theorem gc_add_grey_ends (r : Roots) (s : Addr) {g : GreyStack × Arena T} (h : g.1.Room 0) :
    Ends (gc_add_grey r s g) fun g' => g'.1.Room 0 := by
  cases hshade : shade r s g.2 with
  | none =>
    rw [gc_add_grey_none hshade]
    exact not_false
  | some res =>
    obtain ⟨grey, a'⟩ := res
    cases grey with
    | false =>
      rw [gc_add_grey_false hshade]
      exact h
    | true =>
      rw [gc_add_grey_true hshade]
      by_cases hlt : g.1.items.length < g.1.size
      · have hpush : g.1.push s = .ok ⟨g.1.size, s :: g.1.items⟩ := if_pos hlt
        rw [hpush]
        exact hlt
      · have hpush : g.1.push s = .error .overflow := if_neg hlt
        rw [hpush]
        exact not_false

theorem drain_ends (saving : Bool) (fuel : ℕ) (r : Roots) {g : GreyStack × Arena T}
    (h : g.1.Room 0) :
    Ends (drain saving fuel r g) fun g' => g'.1.Room 0 ∧ (saving = true → g'.1.items = []) := by
  cases saving with
  | false => exact ⟨h, fun hbad => Bool.noConfusion hbad⟩
  | true =>
    refine Avoids.anyError (Avoids.mono (gc_mark_deeper_room r fuel ⟨Nat.zero_le _, h⟩) ?_)
    exact fun g' hg' => ⟨hg'.1.2, fun _ => hg'.2⟩

theorem rootLoop_ends (saving : Bool) (fuel : ℕ) (r : Roots) (l : List Addr)
    {g : GreyStack × Arena T} (h : g.1.Room 0 ∧ (saving = true → g.1.items = [])) :
    Ends (l.foldlM (fun g s => gc_add_grey r s g >>= drain saving fuel r) g)
      fun g' => g'.1.Room 0 ∧ (saving = true → g'.1.items = []) := by
  refine Avoids.foldlM (fun _ (g : GreyStack × Arena T) =>
    g.1.Room 0 ∧ (saving = true → g.1.items = [])) (fun s _ g hg => ?_) h
  exact Avoids.bind (gc_add_grey_ends r s hg.1) fun g' hg' => drain_ends saving fuel r hg'

/-- With `saving` and no entry of `root_stack` the array is empty until the first push. -/
theorem drained_overflow (fuel : ℕ) (r : Roots) (l : List Addr) (a : Arena T) :
    l.foldlM (fun g s => gc_add_grey r s g >>= drain true fuel r) (EMPTY_STACK, a) =
        .error .overflow ↔ greys r l a ≠ 0 := by
  induction l generalizing a with
  | nil =>
    refine iff_of_false (fun hbad => ?_) (by simp [greys])
    have hok : (.ok (EMPTY_STACK, a) : Except Fault (GreyStack × Arena T)) = .error .overflow :=
      hbad
    cases hok
  | cons s ss ih =>
    rw [List.foldlM_cons]
    cases hshade : shade r s a with
    | none =>
      rw [gc_add_grey_none hshade]
      refine iff_of_false (fun hbad => ?_) (by simp [greys, hshade])
      exact Fault.noConfusion (Except.error.inj hbad)
    | some res =>
      obtain ⟨grey, a'⟩ := res
      cases grey with
      | false =>
        rw [gc_add_grey_false hshade]
        have hgreys : greys r (s :: ss) a = greys r ss a' := by simp [greys, hshade]
        have hdrain : drain true fuel r (EMPTY_STACK, a') = .ok (EMPTY_STACK, a') := by
          cases fuel with
          | zero => rfl
          | succ fuel => rfl
        rw [hgreys, ← ih a']
        show (drain true fuel r (EMPTY_STACK, a') >>= fun g => ss.foldlM
          (fun g s => gc_add_grey r s g >>= drain true fuel r) g) = _ ↔ _
        rw [hdrain]
        exact Iff.rfl
      | true =>
        rw [gc_add_grey_true hshade]
        refine iff_of_true rfl ?_
        simp [greys, hshade]

/-- With `saving` the stack is empty before each push. -/
theorem drained_room (fuel : ℕ) (r : Roots) (l : List Addr) {g : GreyStack × Arena T}
    (h : Has 1 1 g) :
    Inside (l.foldlM (fun g s => gc_add_grey r s g >>= drain true fuel r) g) (Has 1 1) := by
  refine Avoids.foldlM (fun _ => Has 1 1) (fun s _ g hg => ?_) h
  refine Avoids.bind (gc_add_grey_room r s hg) fun g' hg' => ?_
  refine Avoids.mono (gc_mark_deeper_room r fuel hg') ?_
  rintro ⟨⟨size', items⟩, a⟩ ⟨⟨hsize, -⟩, hnil⟩
  have hitems : items = [] := hnil
  subst hitems
  exact ⟨hsize, show 0 + 1 ≤ size' from hsize⟩

/-! ### A whole collection -/

theorem pushRoots_false (fuel : ℕ) (r : Roots) (a : Arena T) :
    pushRoots false fuel r a = (r.rootStack ++ r.stablePtrs.map Prod.fst).foldlM
      (fun g s => gc_add_grey r s g) (⟨rootRoom r, []⟩, a) := by
  have hdrain : ∀ s, (fun g : GreyStack × Arena T => gc_add_grey r s g >>= drain false fuel r) =
      fun g => gc_add_grey r s g := by
    intro s
    funext g
    cases gc_add_grey r s g with
    | ok g' => rfl
    | error f => rfl
  have hstep : (fun (g : GreyStack × Arena T) s => gc_add_grey r s g >>= drain false fuel r) =
      fun g s => gc_add_grey r s g := by
    funext g s
    exact congrFun (hdrain s) g
  have hstep' : (fun (g : GreyStack × Arena T) (sp : Addr × ℕ) =>
      gc_add_grey r sp.1 g >>= drain false fuel r) = fun g sp => gc_add_grey r sp.1 g := by
    funext g sp
    exact congrFun (hdrain sp.1) g
  unfold pushRoots
  rw [rootRoom_eq, hstep, hstep', List.foldlM_append]
  simp only [List.foldlM_map]

theorem pushRoots_overflow (saving : Bool) (fuel : ℕ) (r : Roots) (a : Arena T) :
    pushRoots saving fuel r a ≠ .error .overflow ↔ RootsFit saving r a := by
  cases saving with
  | false =>
    rw [pushRoots_false, ne_eq, pushes_overflow r _ _ _ _ (Nat.zero_le _)]
    simp only [RootsFit, List.length_nil, Nat.zero_add, Nat.not_lt, Bool.false_eq_true, if_false]
  | true =>
    simp only [RootsFit, if_true]
    unfold pushRoots
    rw [rootRoom_eq]
    cases hroots : r.rootStack with
    | nil =>
      have hzero : rootRoom r = 0 := by
        unfold rootRoom
        rw [hroots]
        rfl
      rw [hzero]
      have hiff := drained_overflow fuel r (r.stablePtrs.map Prod.fst) a
      rw [List.foldlM_map] at hiff
      have hshape : (([] : List Addr).foldlM (fun g s => gc_add_grey r s g >>= drain true fuel r)
          ((⟨0, []⟩ : GreyStack), a) >>= fun g => r.stablePtrs.foldlM
            (fun g sp => gc_add_grey r sp.1 g >>= drain true fuel r) g) =
          r.stablePtrs.foldlM (fun g sp => gc_add_grey r sp.1 g >>= drain true fuel r)
            (EMPTY_STACK, a) := rfl
      rw [hshape, ne_eq, hiff]
      simp
    | cons s ss =>
      have hpos : 1 ≤ rootRoom r := by
        unfold rootRoom
        rw [hroots, List.length_cons, if_neg (Nat.succ_ne_zero _)]
        omega
      have hstart : Has 1 1 (⟨rootRoom r, []⟩, a) := ⟨hpos, show 0 + 1 ≤ rootRoom r from hpos⟩
      refine iff_of_true ?_ (Or.inl (List.cons_ne_nil s ss))
      have hsafe : Inside ((s :: ss).foldlM
          (fun g s => gc_add_grey r s g >>= drain true fuel r) (⟨rootRoom r, []⟩, a) >>=
            fun g => r.stablePtrs.foldlM
              (fun g sp => gc_add_grey r sp.1 g >>= drain true fuel r) g) (Has 1 1) := by
        refine Avoids.bind (drained_room fuel r _ hstart) fun g hg => ?_
        have hnext := drained_room fuel r (r.stablePtrs.map Prod.fst) hg
        rwa [List.foldlM_map] at hnext
      exact Avoids.not_bad hsafe rfl

/-- Where the pushes of the roots end, the stack is inside its array, and empty
with `saving`. -/
theorem pushRoots_room (saving : Bool) (fuel : ℕ) (r : Roots) (a : Arena T)
    (h : RootsFit saving r a) :
    Inside (pushRoots saving fuel r a) fun g => g.1.Room 0 ∧ (saving = true → g.1.items = []) := by
  refine Avoids.of_ne ?_ ((pushRoots_overflow saving fuel r a).mpr h)
  unfold pushRoots
  rw [rootRoom_eq]
  refine Avoids.bind (rootLoop_ends saving fuel r r.rootStack ⟨Nat.zero_le _, fun _ => rfl⟩)
    fun g hg => ?_
  have hnext := rootLoop_ends saving fuel r (r.stablePtrs.map Prod.fst) hg
  rwa [List.foldlM_map] at hnext

/-- The check before the loop over the GC stack bounds the pushes of that loop. -/
theorem markRoots_room (saving : Bool) (fuel : ℕ) (r : Roots) (a : Arena T)
    (h : RootsFit saving r a) :
    Inside (markRoots saving fuel r a) fun g => g.1.Room 0 := by
  refine Avoids.bind (pushRoots_room saving fuel r a h) fun g hg => ?_
  have hcheck := stack_check_room hg.1 (if saving then 1 else r.gcStack.length)
  cases saving with
  | false =>
    refine Avoids.foldlM (fun ps (g : GreyStack × Arena T) => Has 0 ps.length g)
      (fun p ps g hg => ?_) (show Has 0 r.gcStack.length _ from ⟨Nat.zero_le _, hcheck⟩)
      |>.mono fun g hg => hg.2
    exact Avoids.bind (stackWord_room r p hg) fun g' hg' => hg'
  | true =>
    have hsize : 1 ≤ (g.1.stack_check 1).size := by
      have hone : (g.1.stack_check 1).items.length + 1 ≤ (g.1.stack_check 1).size := hcheck
      omega
    refine Avoids.foldlM (fun _ (g : GreyStack × Arena T) => Has 1 1 g)
      (fun p ps g hg => ?_) (show Has 1 1 _ from ⟨hsize, hcheck⟩)
      |>.mono fun g hg => hg.2.mono (by omega)
    refine Avoids.bind (stackWord_room r p hg) fun g' hg' => ?_
    refine Avoids.mono (gc_mark_deeper_room r fuel hg') ?_
    rintro ⟨⟨size', items⟩, a⟩ ⟨⟨hsize, -⟩, hnil⟩
    have hitems : items = [] := hnil
    subst hitems
    exact ⟨hsize, show 0 + 1 ≤ size' from hsize⟩

/-- LP64, an arena without objects; the page of a stable pointer starts like a
block of objects of one pointer, as far as `s_set_used_bit` looks. -/
def strayArena : Arena Target.lp64 :=
  new_arena Target.lp64 (fun _ => ⟨0, 0, .pi 1 1 0 0, fun _ => 0⟩) fun _ => 0

/-- One stable pointer and nothing else. -/
def strayRoots : Roots := ⟨0, 0, [], [(1048640, 0)], []⟩

/-- The two runs have the same result unless the first one overflows. -/
def Agrees {α β : Type} (p : α → β) (x : Except Fault α) (y : Option β) : Prop :=
  match x with
  | .ok a => y = some (p a)
  | .error .overflow => True
  | .error _ => y = none

theorem Agrees.bind {α β γ δ : Type} {p : α → β} {q : γ → δ} {x : Except Fault α} {y : Option β}
    {f : α → Except Fault γ} {k : β → Option δ} (h : Agrees p x y)
    (hf : ∀ a, Agrees q (f a) (k (p a))) : Agrees q (x >>= f) (y >>= k) := by
  match x with
  | .ok a =>
    rw [show y = some (p a) from h]
    exact hf a
  | .error .overflow => exact trivial
  | .error .crash =>
    rw [show y = none from h]
    rfl
  | .error .outOfFuel =>
    rw [show y = none from h]
    rfl

theorem Agrees.foldlM {α β ι : Type} {p : α → β} {f : α → ι → Except Fault α}
    {k : β → ι → Option β} (hf : ∀ a i, Agrees p (f a i) (k (p a) i)) (l : List ι) (a : α) :
    Agrees p (l.foldlM f a) (l.foldlM k (p a)) := by
  induction l generalizing a with
  | nil => exact rfl
  | cons i l ih =>
    rw [List.foldlM_cons, List.foldlM_cons]
    exact Agrees.bind (hf a i) fun a' => ih a'

theorem Agrees.optionOr {α : Type} {f : Fault} (hf : f ≠ .overflow) (y : Option α) :
    Agrees id (optionOr f y) y := by
  cases y with
  | some a => exact rfl
  | none =>
    cases f with
    | overflow => exact absurd rfl hf
    | crash => exact rfl
    | outOfFuel => exact rfl

/-- The stack as the list that `Arena.gc_perform_gc` keeps. -/
def entries (g : GreyStack × Arena T) : List Addr × Arena T := (g.1.items, g.2)

theorem gc_add_grey_agrees (r : Roots) (s : Addr) (g : GreyStack × Arena T) :
    Agrees entries (gc_add_grey r s g) (Arena.gc_add_grey r s (entries g)) := by
  have hshade : Arena.gc_add_grey r s (entries g) =
      (shade r s g.2).map fun (grey, a) => (if grey then s :: g.1.items else g.1.items, a) := by
    unfold Arena.gc_add_grey shade entries
    split_ifs
    · rfl
    · rfl
  rw [hshade]
  cases hres : shade r s g.2 with
  | none =>
    rw [gc_add_grey_none hres]
    rfl
  | some res =>
    obtain ⟨grey, a'⟩ := res
    cases grey with
    | false =>
      rw [gc_add_grey_false hres]
      rfl
    | true =>
      rw [gc_add_grey_true hres]
      unfold push
      split_ifs
      · rfl
      · exact trivial

theorem follow_agrees (r : Roots) (w : ℕ) (g : GreyStack × Arena T) :
    Agrees entries (follow r w g) (Arena.follow r w (entries g)) := by
  unfold follow Arena.follow
  split_ifs
  · exact gc_add_grey_agrees r _ g
  · exact rfl

theorem gc_mark_deeper_agrees (r : Roots) (fuel : ℕ) (g : GreyStack × Arena T) :
    Agrees Prod.snd (gc_mark_deeper r fuel g) (Arena.gc_mark_deeper r fuel (entries g)) := by
  induction fuel generalizing g with
  | zero =>
    obtain ⟨⟨size, items⟩, a⟩ := g
    cases items with
    | nil => exact rfl
    | cons e rest => exact rfl
  | succ fuel ih =>
    obtain ⟨⟨size, items⟩, a⟩ := g
    cases items with
    | nil => exact rfl
    | cons e rest =>
      have hitems : (stack_check ⟨size, rest⟩ (a.ptrs e)).items = rest := stack_check_items _ _
      have hloop := Agrees.foldlM (p := entries) (f := scanWord r e) (k := Arena.scanWord r e)
        (fun g i => follow_agrees r _ _) (List.range (a.ptrs e))
        (stack_check ⟨size, rest⟩ (a.ptrs e), a)
      have hstart : entries (stack_check ⟨size, rest⟩ (a.ptrs e), a) = (rest, a) := by
        unfold entries
        rw [hitems]
      rw [hstart] at hloop
      exact Agrees.bind hloop fun g' => ih g'

theorem stackWord_agrees (r : Roots) (word : ℕ) (g : GreyStack × Arena T) :
    Agrees entries (stackWord r g word) (Arena.stackWord r (entries g) word) := by
  obtain ⟨s, a⟩ := g
  show Agrees entries (stackWord r (s, a) word) (Arena.stackWord r (s.items, a) word)
  unfold stackWord Arena.stackWord
  split_ifs
  · exact rfl
  · exact follow_agrees r _ (s, a)
  · exact Agrees.bind (Agrees.optionOr (by decide) _) fun a' => follow_agrees r _ (s, a')
  · exact follow_agrees r _ (s, a)

end Sized

end Arena

end Jhc.Rts
