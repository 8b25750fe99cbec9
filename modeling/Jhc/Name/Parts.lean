import Jhc.Text.Read

/-!
# Names and their parts (src/Name/Internals.hs:77-138; src/Name/Name.hs:76-125, 190-325)

A name is the text of its atom with its type; none is an error of the source. The names of `names.txt` are made
by `forgeName`.
-/

namespace Jhc.Name
open Jhc.Text (Str isDigit)

inductive NameType where
  | typeConstructor
  | dataConstructor
  | className
  | typeVal
  | val
  | sortName
  | fieldLabel
  | rawType
  | unknownType
  | quotedName
  deriving DecidableEq

def NameType.all : List NameType :=
  [.typeConstructor, .dataConstructor, .className, .typeVal, .val, .sortName, .fieldLabel, .rawType, .unknownType,
    .quotedName]

structure Name where
  atom : Str
  nameType : NameType
  deriving DecidableEq

abbrev Module := Str

def encodeNameType (t : NameType) : Char := Char.ofNat ('0'.toNat + NameType.all.idxOf t)

def decodeNameType (c : Char) : Option NameType := if c < '0' then none else NameType.all[c.toNat - '0'.toNat]?

def forgeName (t : NameType) : Option Module → Str → Name
  | none, i => ⟨';' :: i, t⟩
  | some m, i => ⟨m ++ ';' :: i, t⟩

def quoteName (name : Name) : Name := ⟨encodeNameType name.nameType :: name.atom, .quotedName⟩

def nameParts (n : Name) : Option (NameType × Option Module × Str) :=
  match n.atom with
  | ';' :: xs => some (n.nameType, none, xs)
  | xs =>
    match xs.span (· ≠ ';') with
    | (a, _ :: b) => some (n.nameType, some a, b)
    | (_, []) => none

def createName (t : NameType) (m : Module) (i : Str) : Option Name :=
  if m = [] then none else if i = [] then none else some (forgeName t (some m) i)

def createUName (t : NameType) (i : Str) : Option Name := if i = [] then none else some (forgeName t none i)

def toName (t : NameType) : Option Module → Str → Option Name
  | some m, i => createName t m i
  | none, i => createUName t i

/-! ### Levels -/

abbrev TyLevel := ℤ

def termLevel : TyLevel := 0
def typeLevel : TyLevel := 1
def kindLevel : TyLevel := 2

def mkNameType (l : TyLevel) (b : Bool) : Option NameType :=
  if l = termLevel then some (if b then .dataConstructor else .val)
  else if l = typeLevel then some (if b then .typeConstructor else .typeVal)
  else if l = kindLevel ∧ b = true then some .sortName
  else none

def s_HashHash : Name := forgeName .sortName none "##".toList
def s_StarStar : Name := forgeName .sortName none "**".toList

/-- `getTyLevel`, by the text of the atom, which a quotation makes longer. -/
def getTyLevel : Str → NameType → Option TyLevel
  | c :: rest, .quotedName => (decodeNameType c).bind (getTyLevel rest)
  | [], .quotedName => none
  | _, .dataConstructor | _, .val => some termLevel
  | _, .rawType | _, .typeConstructor | _, .typeVal => some typeLevel
  | a, .sortName => some (if ⟨a, .sortName⟩ = s_HashHash ∨ ⟨a, .sortName⟩ = s_StarStar then kindLevel + 1 else kindLevel)
  | _, _ => none

def isConstructor : Str → NameType → Option Bool
  | c :: rest, .quotedName => (decodeNameType c).bind (isConstructor rest)
  | [], .quotedName => none
  | _, .typeConstructor | _, .dataConstructor | _, .sortName => some true
  | _, _ => some false

/-! ### Complex names -/

/-- The left name effectively becomes the module. -/
def combineName (n1 n2 : Name) : Name :=
  ⟨'\x7b' :: encodeNameType n1.nameType :: n1.atom ++ '\x7d' :: n2.atom, n2.nameType⟩

structure NameParts where
  nameLevel : TyLevel
  nameQuoted : Bool
  nameConstructor : Bool
  nameModule : Option Module
  nameOuter : List Name
  nameUniquifier : Option ℤ
  nameIdent : Str
  deriving DecidableEq

def showInt : ℤ → Str
  | .ofNat n => Nat.toDigits 10 n
  | .negSucc n => '-' :: Nat.toDigits 10 (n + 1)

/-- The identifier with its uniquifier in front. -/
def NameParts.ident (p : NameParts) : Str :=
  match p.nameUniquifier with
  | some c => showInt c ++ '_' :: p.nameIdent
  | none => p.nameIdent

def mkComplexName (p : NameParts) : Option Name := do
  let nt ← mkNameType p.nameLevel p.nameConstructor
  let n ← toName nt p.nameModule p.ident
  let n := p.nameOuter.foldr combineName n
  return if p.nameQuoted then quoteName n else n

def unRenameString (s : Str) : Option ℤ × Str :=
  match s.span isDigit with
  | (d :: ns, '_' :: rs) => (some (Nat.ofDigitChars 10 (d :: ns) 0), rs)
  | _ => (none, s)

/-- `deconstructName`, without the component that is always empty; the third one is an identifier. -/
def deconstructName : Str → NameType → Option (Bool × Option Module × Str × Option ℤ)
  | c :: rest, .quotedName => do
    let (_, a, c, d) ← (decodeNameType c).bind (deconstructName rest)
    return (true, a, c, d)
  | [], .quotedName => none
  | a, nt => do
    let (nt, mod, id) ← nameParts ⟨a, nt⟩
    let (mi, id') := unRenameString id
    let uqn ← toName nt none id'
    let (_, _, uqn) ← nameParts uqn
    return (false, mod, uqn, mi)

mutual

/-- The outer names in front of the text of an atom, and what is behind them. -/
def outerNames : Str → List Name → Option (List Name × Str)
  | '\x7b' :: nt :: rs, zs => (decodeNameType nt).bind fun nt => outerName 0 rs nt [] zs
  | rs, zs => some (zs.reverse, rs)

/-- The text up to the brace that closes an outer name; braces within are counted. -/
def outerName : ℕ → Str → NameType → Str → List Name → Option (List Name × Str)
  | n, x :: xs, nt, rs, zs =>
    if n = 0 ∧ x = '\x7d' then outerNames xs (⟨rs.reverse, nt⟩ :: zs)
    else if x = '\x7b' then outerName (n + 1) xs nt (x :: rs) zs
    else if x = '\x7d' then outerName (n - 1) xs nt (x :: rs) zs
    else outerName n xs nt (x :: rs) zs
  | _, [], _, _, _ => none

end

/-- The helper `h` of `unMkName`. -/
def splitOuter (nm : Name) : Option (List Name × Name) :=
  match nm.atom with
  | '\x7b' :: xs => (outerNames ('\x7b' :: xs) []).map fun r => (r.1, ⟨r.2, nm.nameType⟩)
  | _ => some ([], nm)

def unMkName (nm : Name) : Option NameParts := do
  let (nameOuter, name) ← splitOuter nm
  let (nameQuoted, nameModule, nameIdent, nameUniquifier) ← deconstructName name.atom name.nameType
  let nameConstructor ← isConstructor nm.atom nm.nameType
  let nameLevel ← getTyLevel nm.atom nm.nameType
  return { nameLevel, nameQuoted, nameConstructor, nameModule, nameOuter, nameUniquifier, nameIdent }

def removeUniquifier (name : Name) : Option Name := do
  mkComplexName { (← unMkName name) with nameUniquifier := none }

end Jhc.Name
