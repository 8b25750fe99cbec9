import Jhc.Rts.GcMark

/-!
# Runs of the mutator and the collector

Allocations, pointer stores and collections. The mutator stores words that it
can reach; a collection then keeps every object that is reachable.
-/

namespace Jhc.Rts
open Jhc.Lib
namespace Arena

variable {T : Target} {P : ℕ → Prop}

/-! ### What the mutator does to reachability -/

/-- A word that the mutator can have: what it points to is reachable. -/
def Avail (r : Roots) (lazyAt : Addr → Bool) (a : Arena T) (w : ℕ) : Prop :=
  WordOk r lazyAt a w ∧ ∀ v, PointsTo r (redirect a.mem w) v → Reachable r a v

def store (a : Arena T) (p : Addr) (w : ℕ) : Arena T :=
  { a with mem := Function.update a.mem p w }

/-- A store into the head of a lazy location redirects it to a word in weak head
normal form. -/
theorem redirect_store {lazyAt : Addr → Bool} {a : Arena T} {p : Addr} {w : ℕ}
    (hw : lazyAt p = true → IS_LAZY w = false) {q : ℕ}
    (hq : GET_PTYPE q = P_LAZY → lazyAt (FROM_SPTR q) = true) :
    redirect (a.store p w).mem q = redirect a.mem q ∨
      redirect (a.store p w).mem q = w ∧ redirect a.mem w = w := by
  by_cases hp : GET_PTYPE q = P_LAZY ∧ FROM_SPTR q = p
  · obtain ⟨hlazy, rfl⟩ := hp
    have hnot := hw (hq hlazy)
    refine Or.inr ⟨?_, redirect_of_not_lazy hnot⟩
    have hhead : (a.store (FROM_SPTR q) w).mem (FROM_SPTR q) = w := Function.update_self ..
    unfold redirect
    rw [hhead, if_pos ⟨hlazy, hnot⟩]
  · refine Or.inl (redirect_congr fun hlazy => ?_)
    exact Function.update_of_ne (fun heq => hp ⟨hlazy, heq⟩) ..

theorem store_word {r : Roots} {lazyAt : Addr → Bool} {a : Arena T} {p : Addr} {w : ℕ}
    (hw : Avail r lazyAt a w) (hhead : lazyAt p = true → IS_LAZY w = false) {q : ℕ}
    (hq : WordOk r lazyAt a q) : WordOk r lazyAt (a.store p w) q := by
  refine ⟨hq.target, hq.cell, fun v hv => ?_⟩
  rcases redirect_store hhead hq.cell with heq | ⟨heq, -⟩
  · rw [heq] at hv ⊢
    exact hq.redirected v hv
  · rw [heq] at hv ⊢
    exact hw.1.target v hv

/-- A reachable word after the store was reachable before, or is the stored one. -/
theorem store_points {r : Roots} {lazyAt : Addr → Bool} {a : Arena T} {p : Addr} {w : ℕ}
    (hw : Avail r lazyAt a w) (hhead : lazyAt p = true → IS_LAZY w = false) {q : ℕ}
    (hq : WordOk r lazyAt a q) (hreach : ∀ v, PointsTo r (redirect a.mem q) v → Reachable r a v)
    {v : Addr} (hv : PointsTo r (redirect (a.store p w).mem q) v) : Reachable r a v := by
  rcases redirect_store hhead hq.cell with heq | ⟨heq, hsame⟩
  · rw [heq] at hv
    exact hreach v hv
  · rw [heq] at hv
    exact hw.2 v (hsame.symm ▸ hv)

theorem store_field {a : Arena T} {p : Addr} {w : ℕ} (q : Addr) :
    (a.store p w).mem q = a.mem q ∨ (a.store p w).mem q = w := by
  by_cases hq : q = p
  · subst hq
    exact Or.inr (Function.update_self ..)
  · exact Or.inl (Function.update_of_ne hq ..)

theorem store_reachable {r : Roots} {lazyAt : Addr → Bool} {a : Arena T} {p : Addr} {w : ℕ}
    (hlive : Live r lazyAt a) (hw : Avail r lazyAt a w)
    (hhead : lazyAt p = true → IS_LAZY w = false) {v : Addr} (hv : Reachable r (a.store p w) v) :
    Reachable r a v := by
  induction hv with
  | root hm hheap => exact .root hm hheap
  | stack hp hpt =>
    exact store_points hw hhead (hlive.stack _ hp).1 (fun _ h => .stack hp h) hpt
  | field hu hi hpt ih =>
    have hi' := hi
    rcases store_field (a := a) (p := p) (w := w) _ with heq | heq
    · rw [heq] at hpt
      exact store_points hw hhead (hlive.fields _ ih _ hi') (fun _ h => .field ih hi' h) hpt
    · rw [heq] at hpt
      exact store_points hw hhead hw.1 hw.2 hpt

theorem store_live {r : Roots} {lazyAt : Addr → Bool} {a : Arena T} {p : Addr} {w : ℕ}
    (hlive : Live r lazyAt a) (hw : Avail r lazyAt a w)
    (hhead : lazyAt p = true → IS_LAZY w = false) : Live r lazyAt (a.store p w) := by
  refine ⟨fun q hq => ?_, hlive.roots, fun q hq => ⟨store_word hw hhead (hlive.stack q hq).1,
    (hlive.stack q hq).2⟩, fun u hu i hi => ?_⟩
  · by_cases hqp : q = p
    · subst hqp
      have hself : (a.store q w).mem q = w := Function.update_self ..
      rw [hself]
      intro hlazy
      have hnot := hhead hq
      rw [(ptype_lazy hlazy).1] at hnot
      exact Bool.noConfusion hnot
    · have hother : (a.store p w).mem q = a.mem q := Function.update_of_ne hqp ..
      rw [hother]
      exact hlive.heads q hq
  · have hu' := store_reachable hlive hw hhead hu
    rcases store_field (a := a) (p := p) (w := w) (u + i * T.wordBytes) with heq | heq
    · rw [heq]
      exact store_word hw hhead (hlive.fields u hu' i hi)
    · rw [heq]
      exact store_word hw hhead hw.1

/-- Other roots, each an old one or available. -/
theorem roots_live {r : Roots} {lazyAt : Addr → Bool} {a : Arena T} (hlive : Live r lazyAt a)
    {vs : List Addr} {ps : List ℕ}
    (hvs : ∀ v ∈ vs, gc_check_heap r v = true →
      v ∈ r.rootStack ∨ Reachable r a v ∧ lazyAt v = false)
    (hps : ∀ p ∈ ps, p ∈ r.gcStack ∨
      Avail r lazyAt a p ∧ (IS_LAZY p = true → GET_PTYPE p = P_LAZY)) :
    Live { r with rootStack := vs, gcStack := ps } lazyAt a := by
  have hback : ∀ v, Reachable { r with rootStack := vs, gcStack := ps } a v → Reachable r a v := by
    intro v hv
    induction hv with
    | root hm hheap =>
      rcases hvs _ hm hheap with hold | ⟨hreach, -⟩
      · exact .root hold hheap
      · exact hreach
    | stack hp hpt =>
      rcases hps _ hp with hold | ⟨havail, -⟩
      · exact .stack hold hpt
      · exact havail.2 _ hpt
    | field hu hi hpt ih => exact .field ih hi hpt
  have hword : ∀ w, WordOk r lazyAt a w →
      WordOk { r with rootStack := vs, gcStack := ps } lazyAt a w :=
    fun w hw => ⟨hw.target, hw.cell, hw.redirected⟩
  refine ⟨hlive.heads, fun v hv hheap => ?_, fun p hp => ?_, fun u hu i hi => ?_⟩
  · rcases hvs v hv hheap with hold | ⟨hreach, hlazy⟩
    · exact hlive.roots v hold hheap
    · exact ⟨(hlive.reachable hreach).1, hlazy⟩
  · rcases hps p hp with hold | ⟨havail, htag⟩
    · exact ⟨hword p (hlive.stack p hold).1, (hlive.stack p hold).2⟩
    · exact ⟨hword p havail.1, htag⟩
  · exact hword _ (hlive.fields u (hback u hu) i hi)

/-! ### A new object -/

def writeWords (T : Target) (mem : Addr → ℕ) (p : Addr) : List ℕ → Addr → ℕ
  | [] => mem
  | w :: ws => writeWords T (Function.update mem p w) (p + T.wordBytes) ws

def initLazy (T : Target) (lazyAt : Addr → Bool) (val : Addr) (n : ℕ) (isLazy : Bool) (p : Addr) :
    Bool :=
  if p = val then isLazy else if ∃ k < n, p = val + k * T.wordBytes then false else lazyAt p

theorem writeWords_other {mem : Addr → ℕ} {p q : Addr} {ws : List ℕ}
    (hq : ∀ k < ws.length, q ≠ p + k * T.wordBytes) : writeWords T mem p ws q = mem q := by
  induction ws generalizing mem p with
  | nil => rfl
  | cons w ws ih =>
    have hhead : q ≠ p := by
      have h := hq 0 (by simp)
      simpa using h
    have htail : ∀ k < ws.length, q ≠ p + T.wordBytes + k * T.wordBytes := by
      intro k hk heq
      refine hq (k + 1) (by simpa using hk) ?_
      rw [heq]
      ring
    show writeWords T (Function.update mem p w) (p + T.wordBytes) ws q = mem q
    rw [ih htail, Function.update_of_ne hhead]

theorem writeWords_at {mem : Addr → ℕ} {p : Addr} {ws : List ℕ} {k w : ℕ}
    (hk : ws[k]? = some w) : writeWords T mem p ws (p + k * T.wordBytes) = w := by
  have hw := T.word_pos
  induction ws generalizing mem p k with
  | nil => simp at hk
  | cons x ws ih =>
    cases k with
    | zero =>
      have hx : x = w := by simpa using hk
      have hother : ∀ k < ws.length, p + 0 * T.wordBytes ≠ p + T.wordBytes + k * T.wordBytes := by
        intro k _ heq
        rw [Nat.zero_mul, Nat.add_zero, Nat.add_assoc] at heq
        have hzero := Nat.left_eq_add.mp heq
        omega
      show writeWords T (Function.update mem p x) (p + T.wordBytes) ws _ = w
      rw [writeWords_other hother, Nat.zero_mul, Nat.add_zero, Function.update_self, hx]
    | succ k =>
      have htail : ws[k]? = some w := by simpa using hk
      have haddr : p + (k + 1) * T.wordBytes = p + T.wordBytes + k * T.wordBytes := by ring
      show writeWords T (Function.update mem p x) (p + T.wordBytes) ws _ = w
      rw [haddr]
      exact ih htail

theorem from_tag {val : ℕ} (hval : 4 ∣ val) (isLazy : Bool) :
    FROM_SPTR (val + isLazy.toNat) = val ∧ IS_LAZY (val + isLazy.toNat) = isLazy ∧
      (IS_LAZY (val + isLazy.toNat) = true → GET_PTYPE (val + isLazy.toNat) = P_LAZY) := by
  have hmod : val % 4 = 0 := Nat.mod_eq_zero_of_dvd hval
  cases isLazy with
  | false =>
    have hfour : (val + 0) % 4 = 0 := hmod
    have htwo : (val + 0) % 2 = 0 := by omega
    refine ⟨?_, ?_, fun hlazy => ?_⟩
    · show val + 0 - (val + 0) % 4 = val
      rw [hfour]
      rfl
    · show ((val + 0) % 2 == 1) = false
      rw [htwo]
      rfl
    · have hone : (val + 0) % 2 = 1 := by simpa [IS_LAZY] using hlazy
      rw [htwo] at hone
      exact absurd hone (by decide)
  | true =>
    have hfour : (val + 1) % 4 = 1 := by omega
    have htwo : (val + 1) % 2 = 1 := by omega
    refine ⟨?_, ?_, fun _ => hfour⟩
    · show val + 1 - (val + 1) % 4 = val
      rw [hfour]
      rfl
    · show ((val + 1) % 2 == 1) = true
      rw [htwo]
      rfl

/-- How the arena `a'` with the new object `val` relates to the arena `a` before. -/
structure NewObject (r : Roots) (a a' : Arena T) (val : Addr) (n : ℕ) : Prop where
  mem : a'.mem = a.mem
  use : ∀ v, a'.InUse v ↔ v = val ∨ a.InUse v
  fresh : ¬ a.InUse val
  ptrs : ∀ v, a.InUse v → a'.ptrs v = a.ptrs v
  ptrs_le : a'.ptrs val ≤ n
  pos : 0 < n
  tag : 4 ∣ val
  apart : ∀ v, a.InUse v → ∀ j, j = 0 ∨ j < a.ptrs v → ∀ k < n,
    v + j * T.wordBytes ≠ val + k * T.wordBytes
  out : ∀ k < n, gc_check_heap r (val + k * T.wordBytes) = true

/-- The first words of a new object: each available, and none yet a pointer to
the object itself. A lazy location starts with a code pointer. -/
structure WordsOk (r : Roots) (lazyAt : Addr → Bool) (a : Arena T) (val : Addr) (isLazy : Bool)
    (ws : List ℕ) : Prop where
  avail : ∀ i < a.ptrs val, ∀ w, ws[i]? = some w → Avail r lazyAt a w ∧ ¬ PointsTo r w val
  code : isLazy = true → ∀ w, ws[0]? = some w → GET_PTYPE w = P_FUNC

theorem NewObject.reachable {r : Roots} {lazyAt : Addr → Bool} {a a' : Arena T} {val : Addr} {n : ℕ}
    (h : NewObject r a a' val n) (hlive : Live r lazyAt a) {v : Addr} (hv : Reachable r a' v) :
    Reachable r a v := by
  induction hv with
  | root hm hheap => exact .root hm hheap
  | stack hp hpt =>
    rw [h.mem] at hpt
    exact .stack hp hpt
  | field hu hi hpt ih =>
    rw [h.ptrs _ (hlive.reachable ih).1] at hi
    rw [h.mem] at hpt
    exact .field ih hi hpt

def init (a : Arena T) (val : Addr) (ws : List ℕ) : Arena T :=
  { a with mem := writeWords T a.mem val ws }

theorem init_live {r : Roots} {lazyAt : Addr → Bool} {a a' : Arena T} {val : Addr} {ws : List ℕ}
    {isLazy : Bool} (hlive : Live r lazyAt a) (h : NewObject r a a' val ws.length)
    (hws : WordsOk r lazyAt a' val isLazy ws) :
    Live (Roots.push r (val + isLazy.toNat)) (initLazy T lazyAt val ws.length isLazy)
      (a'.init val ws) := by
  obtain ⟨hfrom, htagl, htagp⟩ := from_tag h.tag isLazy
  set b : Arena T := a'.init val ws with hb
  set lz := initLazy T lazyAt val ws.length isLazy with hlz
  -- addresses outside the new object keep their word and their kind
  have hother : ∀ q, (∀ k < ws.length, q ≠ val + k * T.wordBytes) →
      b.mem q = a.mem q ∧ lz q = lazyAt q := by
    intro q hq
    refine ⟨?_, ?_⟩
    · rw [← h.mem]
      exact writeWords_other hq
    · have hne : q ≠ val := by
        have h0 := hq 0 h.pos
        simpa using h0
      have hnot : ¬ ∃ k < ws.length, q = val + k * T.wordBytes := fun ⟨k, hk, heq⟩ => hq k hk heq
      rw [hlz, initLazy, if_neg hne, if_neg hnot]
  have huse : ∀ v, a.InUse v → b.InUse v ∧ lz v = lazyAt v := by
    intro v hv
    refine ⟨(h.use v).mpr (Or.inr hv), (hother v fun k hk => ?_).2⟩
    have h0 := h.apart v hv 0 (Or.inl rfl) k hk
    simpa using h0
  have hself : lz val = isLazy := by
    rw [hlz, initLazy, if_pos rfl]
  have hheadword : isLazy = true → GET_PTYPE (b.mem val) = P_FUNC := by
    intro hlazy
    obtain ⟨w, hw⟩ : ∃ w, ws[0]? = some w := ⟨_, List.getElem?_eq_getElem h.pos⟩
    have hat : b.mem val = w := by
      have hzero : writeWords T a'.mem val ws (val + 0 * T.wordBytes) = w := writeWords_at hw
      rw [Nat.zero_mul, Nat.add_zero] at hzero
      exact hzero
    rw [hat]
    exact hws.code hlazy w hw
  have hcell : ∀ w, WordOk r lazyAt a w → GET_PTYPE w = P_LAZY →
      ∀ k < ws.length, FROM_SPTR w ≠ val + k * T.wordBytes := by
    intro w hw hlazy k hk heq
    have hheap : gc_check_heap r (FROM_SPTR w) = true := by
      rw [heq]
      exact h.out k hk
    have huse' := (hw.target _ ⟨(ptype_lazy hlazy).2, hheap, rfl⟩).1
    refine h.apart _ huse' 0 (Or.inl rfl) k hk ?_
    rw [← heq]
    ring
  have hred : ∀ w, WordOk r lazyAt a w → redirect b.mem w = redirect a.mem w := fun w hw =>
    redirect_congr fun hlazy => (hother _ (hcell w hw hlazy)).1
  have hword : ∀ w, WordOk r lazyAt a w → WordOk (Roots.push r (val + isLazy.toNat)) lz b w := by
    intro w hw
    refine ⟨fun v hv => ?_, fun hlazy => ?_, fun v hv => ?_⟩
    · obtain ⟨hin, hl⟩ := hw.target v hv
      exact ⟨(huse v hin).1, (huse v hin).2.trans hl⟩
    · rw [(hother _ (hcell w hw hlazy)).2]
      exact hw.cell hlazy
    · rw [hred w hw] at hv ⊢
      obtain ⟨hin, hl⟩ := hw.redirected v hv
      exact ⟨(huse v hin).1, (huse v hin).2.trans hl⟩
  -- a word written into the new object was available before
  have hnew : ∀ i < a'.ptrs val, WordOk r lazyAt a (b.mem (val + i * T.wordBytes)) ∧
      ∀ v, PointsTo r (redirect a.mem (b.mem (val + i * T.wordBytes))) v → Reachable r a v := by
    intro i hi
    have hlt : i < ws.length := lt_of_lt_of_le hi h.ptrs_le
    obtain ⟨w, hw⟩ : ∃ w, ws[i]? = some w := ⟨ws[i], List.getElem?_eq_getElem hlt⟩
    have hat : b.mem (val + i * T.wordBytes) = w := writeWords_at hw
    obtain ⟨⟨hok, hreach⟩, hnotself⟩ := hws.avail i hi w hw
    have hback : ∀ v, PointsTo r (redirect a.mem w) v → Reachable r a v := by
      intro v hv
      rw [← h.mem] at hv
      exact h.reachable hlive (hreach v hv)
    rw [hat]
    refine ⟨⟨fun v hv => ?_, hok.cell, fun v hv => ?_⟩, hback⟩
    · obtain ⟨hin, hl⟩ := hok.target v hv
      rcases (h.use v).mp hin with rfl | hold
      · exact absurd hv hnotself
      · exact ⟨hold, hl⟩
    · have hv' := hv
      rw [← h.mem] at hv'
      have hl := (hok.redirected v hv').2
      rw [h.mem] at hl
      exact ⟨(hlive.reachable (hback v hv)).1, hl⟩
  -- the new object is not a redirection
  have hredtag : redirect b.mem (val + isLazy.toNat) = val + isLazy.toNat := by
    refine if_neg fun ⟨hlazy, hnot⟩ => ?_
    rw [hfrom] at hnot
    have htrue : isLazy = true := htagl.symm.trans (ptype_lazy hlazy).1
    have hfunc : b.mem val % 4 = 3 := hheadword htrue
    have heven : ¬ b.mem val % 2 = 1 := by simpa [IS_LAZY] using hnot
    omega
  have htag : ∀ v, PointsTo r (val + isLazy.toNat) v → v = val := fun v hv =>
    hv.2.2.symm.trans hfrom
  have hback : ∀ v, Reachable (Roots.push r (val + isLazy.toNat)) b v →
      v = val ∨ Reachable r a v := by
    intro v hv
    induction hv with
    | root hm hheap => exact Or.inr (.root hm hheap)
    | stack hp hpt =>
      rcases List.mem_cons.mp hp with rfl | hold
      · rw [hredtag] at hpt
        exact Or.inl (htag _ hpt)
      · rw [hred _ (hlive.stack _ hold).1] at hpt
        exact Or.inr (.stack hold hpt)
    | field hu hi hpt ih =>
      rcases ih with rfl | hold
      · obtain ⟨hok, hreach⟩ := hnew _ hi
        rw [hred _ hok] at hpt
        exact Or.inr (hreach _ hpt)
      · have hin := (hlive.reachable hold).1
        have hi' := hi
        rw [show b.ptrs _ = a.ptrs _ from h.ptrs _ hin] at hi'
        rw [(hother _ (h.apart _ hin _ (Or.inr hi'))).1,
          hred _ (hlive.fields _ hold _ hi')] at hpt
        exact Or.inr (.field hold hi' hpt)
  refine ⟨fun p hp => ?_, fun v hv hheap => ?_, fun p hp => ?_, fun u hu i hi => ?_⟩
  · by_cases hval : p = val
    · subst hval
      rw [hheadword (hself.symm.trans hp)]
      decide
    · by_cases hin : ∃ k < ws.length, p = val + k * T.wordBytes
      · rw [hlz, initLazy, if_neg hval, if_pos hin] at hp
        exact Bool.noConfusion hp
      · have hout := hother p fun k hk heq => hin ⟨k, hk, heq⟩
        rw [hout.2] at hp
        rw [hout.1]
        exact hlive.heads p hp
  · obtain ⟨hin, hl⟩ := hlive.roots v hv hheap
    exact ⟨(huse v hin).1, (huse v hin).2.trans hl⟩
  · rcases List.mem_cons.mp hp with rfl | hold
    · have hin : b.InUse val := (h.use val).mpr (Or.inl rfl)
      refine ⟨⟨fun v hv => ?_, fun hlazy => ?_, fun v hv => ?_⟩, htagp⟩
      · rw [htag v hv, htagl]
        exact ⟨hin, hself⟩
      · rw [hfrom, hself, ← htagl]
        exact (ptype_lazy hlazy).1
      · rw [hredtag] at hv ⊢
        rw [htag v hv, htagl]
        exact ⟨hin, hself⟩
    · exact ⟨hword p (hlive.stack p hold).1, (hlive.stack p hold).2⟩
  · rcases hback u hu with rfl | hold
    · exact hword _ (hnew i hi).1
    · have hin := (hlive.reachable hold).1
      have hi' := hi
      rw [show b.ptrs _ = a.ptrs _ from h.ptrs _ hin] at hi'
      rw [(hother _ (h.apart _ hin _ (Or.inr hi'))).1]
      exact hword _ (hlive.fields u hold i hi')

end Arena

end Jhc.Rts
