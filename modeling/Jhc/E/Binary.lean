import Mathlib.Data.List.Perm.Subperm
import Mathlib.Data.List.Nodup
import Mathlib.Logic.Function.Basic
import Jhc.Name.Ids

/-!
# Core in object files (src/E/Binary.hs, src/Info/Binary.hs, src/E/Type.hs:87-185)

The instances that are derived at build time and those of the binary package are parameters, as
is the order of the `TypeRep`s of the entries of an `Info`.
-/

namespace Jhc.CoreBinary
open Jhc.Lib.Codec Jhc.Support.Binary Jhc.Ids

/-- The types of `binTableValues` -/
inductive EntryType where
  | val
  | ffiExport
  | demandSignature
  deriving DecidableEq

structure Generated where
  Entry : EntryType → Type
  entry : ∀ t, Codec (Entry t)
  order : List EntryType
  nodup : order.Nodup
  all : ∀ t, t ∈ order
  Prim : Type
  prim : Codec Prim
  Number : Type
  number : Codec Number
  Char : Type
  char : Codec Char

/-! ### Infos -/

/-- The bits of the properties, of which there are 25. -/
structure Properties where
  w : ℕ
  fits : w < 2 ^ 32

def Properties.ofWord (w : ℕ) : Properties := ⟨w % 2 ^ 32, Nat.mod_lt _ (by norm_num)⟩

structure Info (G : Generated) where
  infoProperties : Properties
  infoMap : ∀ t, Option (G.Entry t)

abbrev Dyn (G : Generated) := Σ t, G.Entry t

def binNumber : EntryType → Byte
  | .val => 2
  | .ffiExport => 3
  | .demandSignature => 4

def binTable (ps : Byte) : Option EntryType :=
  if ps = 2 then some .val else if ps = 3 then some .ffiExport else if ps = 4 then some .demandSignature else none

section
variable {G : Generated}

def putProperties (p : Properties) : List Byte := putBE 4 p.w

def getProperties : Get Properties := do
  let w ← getBE 4 0
  pure (.ofWord w)

def putDyn (d : Dyn G) : List Byte := binNumber d.1 :: (G.entry d.1).put d.2

def getDyn : Get (Dyn G) := do
  let ps ← getWord8
  match binTable ps with
  | some t => do
    let x ← (G.entry t).get
    pure ⟨t, x⟩
  | none => failure

def elems (ds : ∀ t, Option (G.Entry t)) : List (Dyn G) := G.order.filterMap fun t => (ds t).map (Sigma.mk t)

def insert (m : ∀ t, Option (G.Entry t)) (x : Dyn G) : ∀ t, Option (G.Entry t) := Function.update m x.1 (some x.2)

def fromList (xs : List (Dyn G)) : ∀ t, Option (G.Entry t) := xs.foldl insert fun _ => none

def putInfo (nf : Info G) : List Byte :=
  let ds' := elems nf.infoMap
  putProperties nf.infoProperties ++ BitVec.ofNat 8 ds'.length :: ds'.flatMap putDyn

def getInfo : Get (Info G) := do
  let p ← getProperties
  let n ← getWord8
  let xs ← replicateG getDyn n.toNat
  pure ⟨p, fromList xs⟩

theorem binTable_binNumber (t : EntryType) : binTable (binNumber t) = some t := by
  cases t <;> rfl

theorem reads_properties (p : Properties) : Reads getProperties (putProperties p) p True := by
  refine reads_total fun rest => ?_
  obtain ⟨w, fits⟩ := p
  change (getBE 4 0 (putBE 4 w ++ rest)).bind (fun x => some (Properties.ofWord x.1, x.2)) = _
  rw [getBE_putBE 4 w (by omega)]
  simp only [Option.bind_some, Properties.ofWord, Nat.mod_eq_of_lt fits]

def Dyn.Kept (d : Dyn G) : Prop := (G.entry d.1).kept d.2

theorem reads_dyn (d : Dyn G) : Reads getDyn (putDyn d) d d.Kept := by
  refine Reads.tag ?_
  simp only [binTable_binNumber]
  exact ((G.entry d.1).reads d.2).map fun x hx => eq_of_heq (Sigma.mk.inj hx).2

theorem getDyn_type {d d' : Dyn G} {rest r : List Byte} (h : getDyn (putDyn d ++ rest) = some (d', r)) :
    d'.1 = d.1 := by
  change (match binTable (binNumber d.1) with
    | some t => do
      let x ← (G.entry t).get
      pure ⟨t, x⟩
    | none => failure : Get (Dyn G)) ((G.entry d.1).put d.2 ++ rest) = _ at h
  simp only [binTable_binNumber] at h
  obtain ⟨⟨x, l⟩, -, h⟩ := Option.bind_eq_some_iff.1 h
  cases h
  rfl

theorem mem_elems {ds : ∀ t, Option (G.Entry t)} {d : Dyn G} : d ∈ elems ds ↔ ds d.1 = some d.2 := by
  rw [elems, List.mem_filterMap]
  constructor
  · rintro ⟨t, -, hd⟩
    obtain ⟨x, hx, rfl⟩ := Option.map_eq_some_iff.1 hd
    exact hx
  · intro hd
    exact ⟨d.1, G.all d.1, by rw [hd]; rfl⟩

theorem elems_type {ds : ∀ t, Option (G.Entry t)} {d d' : Dyn G} (h : d ∈ elems ds) (h' : d' ∈ elems ds)
    (ht : d.1 = d'.1) : d = d' := by
  obtain ⟨t, x⟩ := d
  obtain ⟨t', x'⟩ := d'
  obtain rfl : t = t' := ht
  rw [mem_elems] at h h'
  exact congrArg (Sigma.mk t) (Option.some.inj (h.symm.trans h'))

theorem nodup_elems (ds : ∀ t, Option (G.Entry t)) : (elems ds).Nodup := by
  refine G.nodup.filterMap fun t t' d hd hd' => ?_
  obtain ⟨x, -, rfl⟩ := Option.map_eq_some_iff.1 hd
  obtain ⟨x', -, hx⟩ := Option.map_eq_some_iff.1 hd'
  exact (congrArg Sigma.fst hx).symm

theorem length_elems (ds : ∀ t, Option (G.Entry t)) : (elems ds).length ≤ 3 := by
  have horder : G.order.Subperm [.val, .ffiExport, .demandSignature] :=
    List.subperm_of_subset G.nodup fun t _ => by cases t <;> simp
  exact (List.length_filterMap_le _ _).trans horder.length_le

theorem foldl_insert (xs : List (Dyn G)) (m : ∀ t, Option (G.Entry t)) (t : EntryType) :
    xs.foldl insert m t = m t ∨ ∃ x, ⟨t, x⟩ ∈ xs ∧ xs.foldl insert m t = some x := by
  induction xs generalizing m with
  | nil => exact .inl rfl
  | cons d xs ih =>
    rcases ih (insert m d) with h | ⟨x, hx, h⟩
    · by_cases ht : t = d.1
      · subst ht
        rw [insert, Function.update_self] at h
        exact .inr ⟨d.2, List.mem_cons_self, h⟩
      · rw [insert, Function.update_of_ne ht] at h
        exact .inl h
    · exact .inr ⟨x, List.mem_cons_of_mem _ hx, h⟩

theorem mem_of_fromList {xs : List (Dyn G)} {d : Dyn G} (h : d ∈ elems (fromList xs)) : d ∈ xs := by
  rw [mem_elems] at h
  rcases foldl_insert xs (fun _ => none) d.1 with hd | ⟨x, hx, hd⟩
  · cases h.symm.trans hd
  · obtain rfl : d.2 = x := Option.some.inj (h.symm.trans hd)
    exact hx

theorem mem_foldl_insert {xs : List (Dyn G)} {d : Dyn G} (h : d ∈ xs) (huniq : ∀ d' ∈ xs, d'.1 = d.1 → d' = d)
    (m : ∀ t, Option (G.Entry t)) : xs.foldl insert m d.1 = some d.2 := by
  rcases foldl_insert xs m d.1 with hd | ⟨x, hx, hd⟩
  · clear hd
    induction xs generalizing m with
    | nil => cases h
    | cons d' xs ih =>
      by_cases hmem : d ∈ xs
      · exact ih hmem (fun c hc => huniq c (List.mem_cons_of_mem _ hc)) _
      · obtain rfl : d = d' := (List.mem_cons.1 h).resolve_right hmem
        rcases foldl_insert xs (insert m d) d.1 with hd | ⟨x, hx, -⟩
        · rw [List.foldl_cons, hd, insert, Function.update_self]
        · have heq := huniq _ (List.mem_cons_of_mem _ hx) rfl
          rw [← heq] at hmem
          exact absurd hx hmem
  · obtain ⟨t, y⟩ := d
    cases huniq ⟨t, x⟩ hx rfl
    exact hd

theorem fromList_elems (ds : ∀ t, Option (G.Entry t)) : fromList (elems ds) = ds := by
  funext t
  rcases foldl_insert (elems ds) (fun _ => none) t with h | ⟨x, hx, h⟩
  · cases hds : ds t with
    | none => exact h
    | some x =>
      have hmem : (⟨t, x⟩ : Dyn G) ∈ elems ds := mem_elems.2 hds
      exact mem_foldl_insert hmem (fun d hd ht => elems_type hd hmem ht) _
  · exact h.trans (mem_elems.1 hx).symm

/-- As many entries as a map has and that give the map are its entries. -/
theorem mem_elems_of_fromList {xs : List (Dyn G)} (hlen : xs.length = (elems (fromList xs)).length) {d : Dyn G}
    (hd : d ∈ xs) : d ∈ elems (fromList xs) := by
  have hsub : (elems (fromList xs)).Subperm xs :=
    List.subperm_of_subset (nodup_elems _) fun _ => mem_of_fromList
  exact (hsub.perm_of_length_le hlen.le).mem_iff.2 hd

/-- Entries that are read for others of their types, where a type has one, are kept. -/
theorem entries_kept {S : List (Dyn G)} (huniq : ∀ d ∈ S, ∀ d' ∈ S, d'.1 = d.1 → d' = d) (xs : List (Dyn G))
    (hxs : ∀ d ∈ xs, d ∈ S) {xs' : List (Dyn G)} {rest r : List Byte}
    (h : replicateG getDyn xs.length (xs.flatMap putDyn ++ rest) = some (xs', r)) (hxs' : ∀ d ∈ xs', d ∈ S) :
    ∀ d ∈ xs, d.Kept := by
  induction xs generalizing xs' with
  | nil => exact List.forall_mem_nil _
  | cons d xs ih =>
    obtain ⟨⟨d', l⟩, hd, h⟩ := Option.bind_eq_some_iff.1 h
    obtain ⟨⟨ys, l'⟩, hys, h⟩ := Option.bind_eq_some_iff.1 h
    cases h
    rw [List.flatMap_cons, List.append_assoc] at hd
    obtain ⟨hdS, hxsS⟩ := List.forall_mem_cons.1 hxs
    obtain ⟨hdS', hysS⟩ := List.forall_mem_cons.1 hxs'
    have hsame : d' = d := huniq d hdS d' hdS' (getDyn_type hd)
    have hkept : d.Kept := by
      by_contra hnot
      exact (reads_dyn d).2 hnot _ _ _ hd hsame
    rw [(reads_dyn d).1 hkept] at hd
    cases hd
    exact List.forall_mem_cons.2 ⟨hkept, ih hxsS hys hysS⟩

def Info.Kept (nf : Info G) : Prop := ∀ t, ∀ x ∈ nf.infoMap t, (G.entry t).kept x

theorem reads_info (nf : Info G) : Reads getInfo (putInfo nf) nf nf.Kept := by
  obtain ⟨p, ds⟩ := nf
  have hkept : Info.Kept ⟨p, ds⟩ ↔ ∀ d ∈ elems ds, d.Kept :=
    ⟨fun h d hd => h d.1 d.2 (mem_elems.1 hd), fun h t x hx => h ⟨t, x⟩ (mem_elems.2 hx)⟩
  have hlen : (BitVec.ofNat 8 (elems ds).length).toNat = (elems ds).length :=
    Nat.mod_eq_of_lt ((length_elems ds).trans_lt (by norm_num))
  have hrun : ∀ rest, getInfo (putInfo ⟨p, ds⟩ ++ rest) =
      (replicateG getDyn (elems ds).length ((elems ds).flatMap putDyn ++ rest)).bind
        fun x => some ((⟨p, fromList x.1⟩ : Info G), x.2) := by
    intro rest
    have hp := (reads_properties p).1 trivial
    change (getProperties (putInfo ⟨p, ds⟩ ++ rest)).bind (fun p => (getWord8 p.2).bind fun n =>
      (replicateG getDyn n.1.toNat n.2).bind fun x => some ((⟨p.1, fromList x.1⟩ : Info G), x.2)) = _
    simp only [putInfo, List.append_assoc]
    rw [hp]
    simp only [Option.bind_some, List.cons_append, getWord8, hlen]
  have hentries := reads_replicate (elems ds) fun d _ => reads_dyn d
  refine ⟨fun hk rest => ?_, fun hnot rest w r heq hw => ?_⟩
  · rw [hrun, hentries.1 (hkept.1 hk), Option.bind_some, fromList_elems]
  · rw [hrun] at heq
    obtain ⟨⟨xs, l⟩, hxs, heq⟩ := Option.bind_eq_some_iff.1 heq
    cases heq
    obtain rfl : fromList xs = ds := congrArg Info.infoMap hw
    refine hnot (hkept.2 (entries_kept (fun d hd d' hd' => elems_type hd' hd) _ (fun _ => id) hxs ?_))
    exact fun d => mem_elems_of_fromList (replicateG_length _ hxs)

end

/-! ### Core -/

structure TVr (G : Generated) (e : Type) where
  tvrIdent : Id
  tvrType : e
  tvrInfo : Info G

inductive Lit (G : Generated) (e t a : Type) where
  | litInt (litNumber : G.Number) (litType : t)
  | litCons (litName : Name) (litArgs : List e) (litType : t) (litAliasFor : Option a)

structure Alt (G : Generated) (e : Type) where
  pat : Lit G (TVr G e) e e
  body : e

inductive ESort where
  | eStar | eBang | eHash | eTuple | eHashHash | eStarStar
  | eSortNamed (n : Name)

inductive E (G : Generated) where
  | eAp (f a : E G)
  | eLam (t : TVr G (E G)) (e : E G)
  | ePi (t : TVr G (E G)) (e : E G)
  | eVar (t : TVr G (E G))
  | unknown
  | eSort (s : ESort)
  | eLit (l : Lit G (E G) (E G) (E G))
  | eLetRec (eDefs : List (TVr G (E G) × E G)) (eBody : E G)
  | ePrim (p : G.Prim) (es : List (E G)) (t : E G)
  | eError (s : List G.Char) (t : E G)
  | eCase (eCaseScrutinee eCaseType : E G) (eCaseBind : TVr G (E G)) (eCaseAlts : List (Alt G (E G)))
      (eCaseDefault : Option (E G)) (eCaseAllFV : IdSet)

section
variable (T : AtomTable) {G : Generated}

def putESort : ESort → List Byte
  | .eStar => [0]
  | .eBang => [1]
  | .eHash => [2]
  | .eTuple => [3]
  | .eHashHash => [4]
  | .eStarStar => [5]
  | .eSortNamed aa => 6 :: putName T aa

mutual

def putE : E G → List Byte
  | .eAp aa ab => 0 :: (putE aa ++ putE ab)
  | .eLam ac ad => 1 :: (putTVr ac ++ putE ad)
  | .ePi ae af => 2 :: (putTVr ae ++ putE af)
  | .eVar ag => 3 :: putTVr ag
  | .unknown => [4]
  | .eSort ah => 5 :: putESort T ah
  | .eLit ai => 6 :: putLit ai
  | .eLetRec aj ak => 7 :: ((putLEB128 (aj.length % 2 ^ 64) ++ putDefs aj) ++ putE ak)
  | .ePrim al am an => 8 :: (G.prim.put al ++ ((putBE 8 (am.length % 2 ^ 64) ++ putEs am) ++ putE an))
  | .eError ao ap => 9 :: (putBinaryList G.char.put ao ++ putE ap)
  | .eCase aq ar as ats au av => 10 :: (putE aq ++ (putE ar ++ (putTVr as ++
      ((putLEB128 (ats.length % 2 ^ 64) ++ putAlts ats) ++ (putDefault au ++ putIdSet T av)))))

def putTVr : TVr G (E G) → List Byte
  | ⟨eid, e, nf⟩ => putId T eid ++ (putE e ++ putInfo nf)

def putLit : Lit G (E G) (E G) (E G) → List Byte
  | .litInt aa ab => 0 :: (G.number.put aa ++ putE ab)
  | .litCons ac ad ae af => 1 :: (putName T ac ++
      ((putLEB128 (ad.length % 2 ^ 64) ++ putEs ad) ++ (putE ae ++ putDefault af)))

/-- `putLit` of the literal of an alternative -/
def putPat : Lit G (TVr G (E G)) (E G) (E G) → List Byte
  | .litInt aa ab => 0 :: (G.number.put aa ++ putE ab)
  | .litCons ac ad ae af => 1 :: (putName T ac ++
      ((putLEB128 (ad.length % 2 ^ 64) ++ putTVrs ad) ++ (putE ae ++ putDefault af)))

def putAlt : Alt G (E G) → List Byte
  | ⟨aa, ab⟩ => putPat aa ++ putE ab

def putDef : TVr G (E G) × E G → List Byte
  | (t, e) => putTVr t ++ putE e

/-- `Binary (Maybe a)` -/
def putDefault : Option (E G) → List Byte
  | none => [0]
  | some e => 1 :: putE e

def putEs : List (E G) → List Byte
  | [] => []
  | e :: es => putE e ++ putEs es

def putTVrs : List (TVr G (E G)) → List Byte
  | [] => []
  | t :: ts => putTVr t ++ putTVrs ts

def putDefs : List (TVr G (E G) × E G) → List Byte
  | [] => []
  | d :: ds => putDef d ++ putDefs ds

def putAlts : List (Alt G (E G)) → List Byte
  | [] => []
  | a :: as => putAlt a ++ putAlts as

end

def getESort : Get ESort := do
  let h ← getWord8
  match h.toNat with
  | 0 => pure .eStar
  | 1 => pure .eBang
  | 2 => pure .eHash
  | 3 => pure .eTuple
  | 4 => pure .eHashHash
  | 5 => pure .eStarStar
  | 6 => do
    let aa ← getName T
    pure (.eSortNamed aa)
  | _ => failure

section
variable {e t a : Type}

def getTVr (get : Get e) : Get (TVr G e) := do
  let x ← getId T
  let e ← get
  let nf ← getInfo
  pure ⟨x, e, nf⟩

def getLit (gete : Get e) (gett : Get t) (geta : Get a) : Get (Lit G e t a) := do
  let h ← getWord8
  match h.toNat with
  | 0 => do
    let aa ← G.number.get
    let ab ← gett
    pure (.litInt aa ab)
  | 1 => do
    let ac ← getName T
    let ad ← getList gete
    let ae ← gett
    let af ← getMaybe geta
    pure (.litCons ac ad ae af)
  | _ => failure

def getAlt (get : Get e) : Get (Alt G e) := do
  let aa ← getLit T (getTVr T get) get get
  let ab ← get
  pure ⟨aa, ab⟩

end

/-- The argument bounds the depth of the recursion. -/
def getE : ℕ → Get (E G)
  | 0 => failure
  | n + 1 => do
    let h ← getWord8
    match h.toNat with
    | 0 => do
      let aa ← getE n
      let ab ← getE n
      pure (.eAp aa ab)
    | 1 => do
      let ac ← getTVr T (getE n)
      let ad ← getE n
      pure (.eLam ac ad)
    | 2 => do
      let ae ← getTVr T (getE n)
      let af ← getE n
      pure (.ePi ae af)
    | 3 => do
      let ag ← getTVr T (getE n)
      pure (.eVar ag)
    | 4 => pure .unknown
    | 5 => do
      let ah ← getESort T
      pure (.eSort ah)
    | 6 => do
      let ai ← getLit T (getE n) (getE n) (getE n)
      pure (.eLit ai)
    | 7 => do
      let aj ← getList (pairG (getTVr T (getE n)) (getE n))
      let ak ← getE n
      pure (.eLetRec aj ak)
    | 8 => do
      let al ← G.prim.get
      let am ← getBinaryList (getE n)
      let an ← getE n
      pure (.ePrim al am an)
    | 9 => do
      let ao ← getBinaryList G.char.get
      let ap ← getE n
      pure (.eError ao ap)
    | 10 => do
      let aq ← getE n
      let ar ← getE n
      let as ← getTVr T (getE n)
      let ats ← getList (getAlt T (getE n))
      let au ← getMaybe (getE n)
      let av ← getIdSet T
      pure (.eCase aq ar as ats au av)
    | _ => failure

/-! ### Rules -/

inductive RuleType where
  | ruleSpecialization
  | ruleUser
  | ruleCatalyst

/-- A module is its atom, and an `Int` has 64 bits. -/
structure Rule (G : Generated) where
  ruleHead : TVr G (E G)
  ruleBinds : List (TVr G (E G))
  ruleArgs : List (E G)
  ruleNArgs : BitVec 64
  ruleBody : E G
  ruleType : RuleType
  ruleUniq : ℕ × BitVec 64
  ruleName : ℕ

structure ARules (G : Generated) where
  aruleFreeVars : IdSet
  aruleRules : List (Rule G)

def putRuleType : RuleType → List Byte
  | .ruleSpecialization => [0]
  | .ruleUser => [1]
  | .ruleCatalyst => [2]

def getRuleType : Get RuleType := do
  let h ← getWord8
  match h.toNat with
  | 0 => pure .ruleSpecialization
  | 1 => pure .ruleUser
  | 2 => pure .ruleCatalyst
  | _ => failure

def putInt (i : BitVec 64) : List Byte := putBE 8 i.toNat

def getInt : Get (BitVec 64) := do
  let w ← getBE 8 0
  pure (BitVec.ofNat 64 w)

def getLEBInt : Get (BitVec 64) := do
  let w ← getLEB128
  pure (BitVec.ofNat 64 w)

def putRule (r : Rule G) : List Byte :=
  putTVr T r.ruleHead ++ (putList (putTVr T) r.ruleBinds ++ (putList (putE T) r.ruleArgs ++
    (putLEB128 r.ruleNArgs.toNat ++ (putE T r.ruleBody ++ (putRuleType r.ruleType ++
      ((putAtom T r.ruleUniq.1 ++ putInt r.ruleUniq.2) ++ putAtom T r.ruleName))))))

def getRule (get : Get (E G)) : Get (Rule G) := do
  let aa ← getTVr T get
  let ab ← getList (getTVr T get)
  let ac ← getList get
  let ad ← getLEBInt
  let ae ← get
  let af ← getRuleType
  let ag ← pairG (getAtom T) getInt
  let ah ← getAtom T
  pure ⟨aa, ab, ac, ad, ae, af, ag, ah⟩

def putARules (a : ARules G) : List Byte := putIdSet T a.aruleFreeVars ++ putList (putRule T) a.aruleRules

def getARules (get : Get (E G)) : Get (ARules G) := do
  let aa ← getIdSet T
  let ab ← getList (getRule T get)
  pure ⟨aa, ab⟩

/-! ### What is kept -/

def ESort.Kept : ESort → Prop
  | .eSortNamed n => n.Kept T
  | _ => True

mutual

/-- The ids, names, numbers, primitives and infos are kept and the lists have a length. -/
def E.Kept : E G → Prop
  | .eAp f a => f.Kept ∧ a.Kept
  | .eLam t e => KeptTVr t ∧ e.Kept
  | .ePi t e => KeptTVr t ∧ e.Kept
  | .eVar t => KeptTVr t
  | .unknown => True
  | .eSort s => s.Kept T
  | .eLit l => KeptLit l
  | .eLetRec ds e => (ds.length < 2 ^ 63 ∧ KeptDefs ds) ∧ e.Kept
  | .ePrim p es t => G.prim.kept p ∧ (es.length < 2 ^ 63 ∧ KeptEs es) ∧ t.Kept
  | .eError s t => (s.length < 2 ^ 63 ∧ ∀ c ∈ s, G.char.kept c) ∧ t.Kept
  | .eCase e ty b as d fv => e.Kept ∧ ty.Kept ∧ KeptTVr b ∧ (as.length < 2 ^ 63 ∧ KeptAlts as) ∧ KeptDefault d ∧
      ∀ i ∈ fv, i.Kept T

def KeptTVr : TVr G (E G) → Prop
  | ⟨i, t, nf⟩ => i.Kept T ∧ t.Kept ∧ nf.Kept

def KeptLit : Lit G (E G) (E G) (E G) → Prop
  | .litInt n t => G.number.kept n ∧ t.Kept
  | .litCons n es t a => n.Kept T ∧ (es.length < 2 ^ 63 ∧ KeptEs es) ∧ t.Kept ∧ KeptDefault a

def KeptPat : Lit G (TVr G (E G)) (E G) (E G) → Prop
  | .litInt n t => G.number.kept n ∧ t.Kept
  | .litCons n ts t a => n.Kept T ∧ (ts.length < 2 ^ 63 ∧ KeptTVrs ts) ∧ t.Kept ∧ KeptDefault a

def KeptAlt : Alt G (E G) → Prop
  | ⟨p, e⟩ => KeptPat p ∧ e.Kept

def KeptDef : TVr G (E G) × E G → Prop
  | (t, e) => KeptTVr t ∧ e.Kept

def KeptDefault : Option (E G) → Prop
  | none => True
  | some e => e.Kept

def KeptEs : List (E G) → Prop
  | [] => True
  | e :: es => e.Kept ∧ KeptEs es

def KeptTVrs : List (TVr G (E G)) → Prop
  | [] => True
  | t :: ts => KeptTVr t ∧ KeptTVrs ts

def KeptDefs : List (TVr G (E G) × E G) → Prop
  | [] => True
  | d :: ds => KeptDef d ∧ KeptDefs ds

def KeptAlts : List (Alt G (E G)) → Prop
  | [] => True
  | a :: as => KeptAlt a ∧ KeptAlts as

end

def Rule.Kept (r : Rule G) : Prop :=
  KeptTVr T r.ruleHead ∧ (r.ruleBinds.length < 2 ^ 63 ∧ ∀ t ∈ r.ruleBinds, KeptTVr T t) ∧
    (r.ruleArgs.length < 2 ^ 63 ∧ ∀ e ∈ r.ruleArgs, e.Kept T) ∧ r.ruleBody.Kept T ∧ T.Kept r.ruleUniq.1 ∧ T.Kept r.ruleName

def ARules.Kept (a : ARules G) : Prop :=
  (∀ i ∈ a.aruleFreeVars, i.Kept T) ∧ a.aruleRules.length < 2 ^ 63 ∧ ∀ r ∈ a.aruleRules, r.Kept T

end

/-! ### What is written is read -/

section
variable {T : AtomTable} {G : Generated}

theorem reads_eSort (s : ESort) : Reads (getESort T) (putESort T s) s (s.Kept T) := by
  cases s with
  | eSortNamed n => exact Reads.tag ((reads_name n).map fun _ => ESort.eSortNamed.inj)
  | eStar => exact Reads.tag (reads_pure _)
  | eBang => exact Reads.tag (reads_pure _)
  | eHash => exact Reads.tag (reads_pure _)
  | eTuple => exact Reads.tag (reads_pure _)
  | eHashHash => exact Reads.tag (reads_pure _)
  | eStarStar => exact Reads.tag (reads_pure _)

variable {get : Get (E G)} {n : ℕ}

/-- The reader of the parts of an expression reads the expressions of this size. -/
def ReadsTo (get : Get (E G)) (T : AtomTable) (n : ℕ) : Prop :=
  ∀ e, sizeOf e < n → Reads get (putE T e) e (e.Kept T)

theorem ReadsTo.tvr (ih : ReadsTo get T n) (t : TVr G (E G)) (h : sizeOf t ≤ n) :
    Reads (getTVr T get) (putTVr T t) t (KeptTVr T t) := by
  obtain ⟨i, e, nf⟩ := t
  simp only [TVr.mk.sizeOf_spec] at h
  exact (reads_id i).seq3 (ih e (by omega)) (reads_info nf) fun _ _ _ => TVr.mk.inj

theorem ReadsTo.default (ih : ReadsTo get T n) (d : Option (E G)) (h : sizeOf d ≤ n) :
    Reads (getMaybe get) (putDefault T d) d (KeptDefault T d) := by
  cases d with
  | none => exact Reads.tag (reads_pure _)
  | some e =>
    simp only [Option.some.sizeOf_spec] at h
    exact Reads.tag ((ih e (by omega)).map fun _ => Option.some.inj)

theorem ReadsTo.es (ih : ReadsTo get T n) (es : List (E G)) (h : sizeOf es ≤ n) :
    Reads (getList get) (putLEB128 (es.length % 2 ^ 64) ++ putEs T es) es (es.length < 2 ^ 63 ∧ KeptEs T es) := by
  obtain ⟨hput, hkept⟩ := elements_eq (putEs T) (KeptEs T) rfl (fun _ _ => rfl) trivial (fun _ _ => Iff.rfl) es
  have hlist := reads_list es fun e he => ih e ((List.sizeOf_lt_of_mem he).trans_le h)
  rwa [putList, ← hput, ← hkept] at hlist

theorem ReadsTo.args (ih : ReadsTo get T n) (es : List (E G)) (h : sizeOf es ≤ n) :
    Reads (getBinaryList get) (putBE 8 (es.length % 2 ^ 64) ++ putEs T es) es
      (es.length < 2 ^ 63 ∧ KeptEs T es) := by
  obtain ⟨hput, hkept⟩ := elements_eq (putEs T) (KeptEs T) rfl (fun _ _ => rfl) trivial (fun _ _ => Iff.rfl) es
  have hlist := reads_binaryList es fun e he => ih e ((List.sizeOf_lt_of_mem he).trans_le h)
  rwa [putBinaryList, ← hput, ← hkept] at hlist

theorem ReadsTo.tvrs (ih : ReadsTo get T n) (ts : List (TVr G (E G))) (h : sizeOf ts ≤ n) :
    Reads (getList (getTVr T get)) (putLEB128 (ts.length % 2 ^ 64) ++ putTVrs T ts) ts
      (ts.length < 2 ^ 63 ∧ KeptTVrs T ts) := by
  obtain ⟨hput, hkept⟩ := elements_eq (putTVrs T) (KeptTVrs T) rfl (fun _ _ => rfl) trivial (fun _ _ => Iff.rfl) ts
  have hlist := reads_list ts fun t ht => ih.tvr t ((List.sizeOf_lt_of_mem ht).le.trans h)
  rwa [putList, ← hput, ← hkept] at hlist

theorem ReadsTo.defs (ih : ReadsTo get T n) (ds : List (TVr G (E G) × E G)) (h : sizeOf ds ≤ n) :
    Reads (getList (pairG (getTVr T get) get)) (putLEB128 (ds.length % 2 ^ 64) ++ putDefs T ds) ds
      (ds.length < 2 ^ 63 ∧ KeptDefs T ds) := by
  obtain ⟨hput, hkept⟩ := elements_eq (putDefs T) (KeptDefs T) rfl (fun _ _ => rfl) trivial (fun _ _ => Iff.rfl) ds
  have hread : ∀ d ∈ ds, Reads (pairG (getTVr T get) get) (putDef T d) d (KeptDef T d) := by
    rintro ⟨t, e⟩ hd
    have hlt := List.sizeOf_lt_of_mem hd
    simp only [Prod.mk.sizeOf_spec] at hlt
    exact (ih.tvr t (by omega)).pair (ih e (by omega))
  have hlist := reads_list ds hread
  rwa [putList, ← hput, ← hkept] at hlist

theorem ReadsTo.lit (ih : ReadsTo get T n) (l : Lit G (E G) (E G) (E G)) (h : sizeOf l ≤ n) :
    Reads (getLit T get get get) (putLit T l) l (KeptLit T l) := by
  cases l with
  | litInt k t =>
    simp only [Lit.litInt.sizeOf_spec] at h
    exact Reads.tag ((G.number.reads k).seq2 (ih t (by omega)) fun _ _ => Lit.litInt.inj)
  | litCons m es t a =>
    simp only [Lit.litCons.sizeOf_spec] at h
    exact Reads.tag ((reads_name m).seq4 (ih.es es (by omega)) (ih t (by omega)) (ih.default a (by omega))
      fun _ _ _ _ => Lit.litCons.inj)

theorem ReadsTo.pat (ih : ReadsTo get T n) (l : Lit G (TVr G (E G)) (E G) (E G)) (h : sizeOf l ≤ n) :
    Reads (getLit T (getTVr T get) get get) (putPat T l) l (KeptPat T l) := by
  cases l with
  | litInt k t =>
    simp only [Lit.litInt.sizeOf_spec] at h
    exact Reads.tag ((G.number.reads k).seq2 (ih t (by omega)) fun _ _ => Lit.litInt.inj)
  | litCons m ts t a =>
    simp only [Lit.litCons.sizeOf_spec] at h
    exact Reads.tag ((reads_name m).seq4 (ih.tvrs ts (by omega)) (ih t (by omega)) (ih.default a (by omega))
      fun _ _ _ _ => Lit.litCons.inj)

theorem ReadsTo.alts (ih : ReadsTo get T n) (as : List (Alt G (E G))) (h : sizeOf as ≤ n) :
    Reads (getList (getAlt T get)) (putLEB128 (as.length % 2 ^ 64) ++ putAlts T as) as
      (as.length < 2 ^ 63 ∧ KeptAlts T as) := by
  obtain ⟨hput, hkept⟩ := elements_eq (putAlts T) (KeptAlts T) rfl (fun _ _ => rfl) trivial (fun _ _ => Iff.rfl) as
  have hread : ∀ a ∈ as, Reads (getAlt T get) (putAlt T a) a (KeptAlt T a) := by
    rintro ⟨p, e⟩ ha
    have hlt := List.sizeOf_lt_of_mem ha
    simp only [Alt.mk.sizeOf_spec] at hlt
    exact (ih.pat p (by omega)).seq2 (ih e (by omega)) fun _ _ => Alt.mk.inj
  have hlist := reads_list as hread
  rwa [putList, ← hput, ← hkept] at hlist

theorem reads_E (n : ℕ) : ReadsTo (G := G) (getE T n) T n := by
  induction n with
  | zero =>
    intro e he
    omega
  | succ n ih =>
    intro e he
    cases e with
    | eAp f a =>
      simp only [E.eAp.sizeOf_spec] at he
      exact Reads.tag ((ih f (by omega)).seq2 (ih a (by omega)) fun _ _ => E.eAp.inj)
    | eLam t e =>
      simp only [E.eLam.sizeOf_spec] at he
      exact Reads.tag ((ih.tvr t (by omega)).seq2 (ih e (by omega)) fun _ _ => E.eLam.inj)
    | ePi t e =>
      simp only [E.ePi.sizeOf_spec] at he
      exact Reads.tag ((ih.tvr t (by omega)).seq2 (ih e (by omega)) fun _ _ => E.ePi.inj)
    | eVar t =>
      simp only [E.eVar.sizeOf_spec] at he
      exact Reads.tag ((ih.tvr t (by omega)).map fun _ => E.eVar.inj)
    | unknown => exact Reads.tag (reads_pure _)
    | eSort s => exact Reads.tag ((reads_eSort s).map fun _ => E.eSort.inj)
    | eLit l =>
      simp only [E.eLit.sizeOf_spec] at he
      exact Reads.tag ((ih.lit l (by omega)).map fun _ => E.eLit.inj)
    | eLetRec ds e =>
      simp only [E.eLetRec.sizeOf_spec] at he
      exact Reads.tag ((ih.defs ds (by omega)).seq2 (ih e (by omega)) fun _ _ => E.eLetRec.inj)
    | ePrim p es t =>
      simp only [E.ePrim.sizeOf_spec] at he
      exact Reads.tag ((G.prim.reads p).seq3 (ih.args es (by omega)) (ih t (by omega)) fun _ _ _ => E.ePrim.inj)
    | eError s t =>
      simp only [E.eError.sizeOf_spec] at he
      exact Reads.tag ((reads_binaryList s fun c _ => G.char.reads c).seq2 (ih t (by omega)) fun _ _ => E.eError.inj)
    | eCase e ty b as d fv =>
      simp only [E.eCase.sizeOf_spec] at he
      exact Reads.tag ((ih e (by omega)).seq6 (ih ty (by omega)) (ih.tvr b (by omega)) (ih.alts as (by omega))
        (ih.default d (by omega)) (reads_idSet fv) fun _ _ _ _ _ _ => E.eCase.inj)

theorem reads_ruleType (t : RuleType) : Reads getRuleType (putRuleType t) t True := by
  cases t with
  | ruleSpecialization => exact Reads.tag (reads_pure _)
  | ruleUser => exact Reads.tag (reads_pure _)
  | ruleCatalyst => exact Reads.tag (reads_pure _)

theorem reads_ofNat {num : Get ℕ} {bs : List Byte} (i : BitVec 64) (h : Reads num bs i.toNat True) :
    Reads (do let w ← num; pure (BitVec.ofNat 64 w)) bs i True := by
  refine reads_total fun rest => ?_
  change (num (bs ++ rest)).bind (fun x => some (BitVec.ofNat 64 x.1, x.2)) = _
  rw [h.1 trivial, Option.bind_some, BitVec.ofNat_toNat, BitVec.setWidth_eq]

theorem reads_rule {N : ℕ} (r : Rule G) (h : sizeOf r ≤ N) :
    Reads (getRule T (getE T N)) (putRule T r) r (r.Kept T) := by
  obtain ⟨aa, ab, ac, ad, ae, af, ag, ah⟩ := r
  simp only [Rule.mk.sizeOf_spec] at h
  have ih := reads_E (T := T) (G := G) N
  have htvrs := reads_list ab fun t ht => ih.tvr t (by have := List.sizeOf_lt_of_mem ht; omega)
  have hargs := reads_list ac fun e he => ih e (by have := List.sizeOf_lt_of_mem he; omega)
  have hnargs : Reads getLEBInt (putLEB128 ad.toNat) ad True := reads_ofNat ad (reads_LEB128 ad.isLt)
  have hint : Reads getInt (putInt ag.2) ag.2 True := reads_ofNat ag.2 (reads_BE (n := 8) ag.2.isLt)
  have huniq := (reads_atom (T := T) ag.1).pair hint
  have hseq := (ih.tvr aa (by omega)).seq8 htvrs hargs hnargs (ih ae (by omega)) (reads_ruleType af) huniq
    (reads_atom (T := T) ah) fun _ _ _ _ _ _ _ _ => Rule.mk.inj
  refine Reads.iff hseq ?_
  simp only [Rule.Kept, true_and, and_true]

theorem reads_aRules {N : ℕ} (a : ARules G) (h : sizeOf a ≤ N) :
    Reads (getARules T (getE T N)) (putARules T a) a (a.Kept T) := by
  obtain ⟨fv, rs⟩ := a
  simp only [ARules.mk.sizeOf_spec] at h
  have hrules := reads_list rs fun r hr => reads_rule (T := T) (N := N) r (by have := List.sizeOf_lt_of_mem hr; omega)
  exact (reads_idSet fv).seq2 hrules fun _ _ => ARules.mk.inj

end

/-! ### Round trips -/

/-- From some depth on the reader gives the value back and takes its bytes. -/
def RoundTrips {α : Type} (get : ℕ → Get α) (bs : List Byte) (v : α) : Prop :=
  ∃ N, ∀ n ≥ N, ∀ rest, get n (bs ++ rest) = some (v, rest)

theorem roundTrips_iff {α : Type} {get : ℕ → Get α} {bs : List Byte} {v : α} {kept : Prop} (M : ℕ)
    (h : ∀ n ≥ M, Reads (get n) bs v kept) : RoundTrips get bs v ↔ kept := by
  constructor
  · rintro ⟨N, hN⟩
    by_contra hnot
    exact (h (max M N) (le_max_left M N)).2 hnot [] v [] (hN _ (le_max_right M N) []) rfl
  · exact fun hkept => ⟨M, fun n hn rest => (h n hn).1 hkept rest⟩

section
variable (T : AtomTable) (G : Generated)

theorem roundTrips_E (e : E G) : RoundTrips (getE T) (putE T e) e ↔ e.Kept T :=
  roundTrips_iff (sizeOf e + 1) fun n hn => reads_E n e hn

theorem core_roundTrips_iff :
    (∀ e : E G, RoundTrips (getE T) (putE T e) e ↔ e.Kept T) ∧
    (∀ r : Rule G, RoundTrips (fun n => getRule T (getE T n)) (putRule T r) r ↔ r.Kept T) ∧
    (∀ a : ARules G, RoundTrips (fun n => getARules T (getE T n)) (putARules T a) a ↔ a.Kept T) ∧
    (∀ l : Lit G (E G) (E G) (E G),
      RoundTrips (fun n => getLit T (getE T n) (getE T n) (getE T n)) (putLit T l) l ↔ KeptLit T l) ∧
    ∀ nf : Info G, RoundTrips (fun _ => getInfo) (putInfo nf) nf ↔ nf.Kept := by
  refine ⟨roundTrips_E T G, fun r => ?_, fun a => ?_, fun l => ?_, fun nf => ?_⟩
  · exact roundTrips_iff (sizeOf r) fun n hn => reads_rule r hn
  · exact roundTrips_iff (sizeOf a) fun n hn => reads_aRules a hn
  · exact roundTrips_iff (sizeOf l) fun n hn => (reads_E n).lit l hn
  · exact roundTrips_iff 0 fun _ _ => reads_info nf

end

/-! ### A large id -/

def shortAtom : List Byte → ℕ
  | [b] => b.toNat + 1
  | _ => 0

def shortText (a : ℕ) : List Byte := if 0 < a ∧ a ≤ 256 then [BitVec.ofNat 8 (a - 1)] else []

/-- The empty text and those of one byte -/
def shortTexts : AtomTable where
  toAtom := shortAtom
  fromAtom := shortText
  fits bs := by
    unfold shortAtom
    split
    · next b =>
      have hlt := b.isLt
      omega
    · norm_num
  short a := by
    unfold shortText
    split
    · exact Nat.lt_of_sub_eq_succ rfl
    · exact Nat.zero_lt_succ 255
  again bs _ := by
    match bs with
    | [b] =>
      have hlt := b.isLt
      rw [shortAtom, shortText, if_pos (by omega), Nat.add_sub_cancel, BitVec.ofNat_toNat, BitVec.setWidth_eq, shortAtom]
    | [] => rfl
    | _ :: _ :: _ => rfl

def unitCodec : Codec Unit := ⟨fun _ => [], pure (), fun _ => True, fun _ => reads_pure ()⟩

def noEntries : Generated where
  Entry _ := Unit
  entry _ := unitCodec
  order := [.val, .ffiExport, .demandSignature]
  nodup := by decide
  all t := by cases t <;> decide
  Prim := Unit
  prim := unitCodec
  Number := Unit
  number := unitCodec
  Char := Unit
  char := unitCodec

/-- A variable that is anonymous with `2 ^ 30` -/
def largeVar : E noEntries :=
  .eVar ⟨anonymous (2 ^ 30) (by norm_num), .unknown, ⟨.ofWord 0, fun _ => none⟩⟩

theorem largeVar_not_roundTrips : ¬ RoundTrips (getE shortTexts) (putE shortTexts largeVar) largeVar := by
  rw [roundTrips_E]
  rintro ⟨hid, -⟩
  have hrange := (kept_even (T := shortTexts) (i := anonymous (2 ^ 30) (by norm_num)) rfl).1 hid
  exact absurd hrange.2 (by decide)

end Jhc.CoreBinary
