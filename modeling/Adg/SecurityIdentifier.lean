import Adg.Observation

/-!
# Security identifiers

String-form SIDs are canonicalized once, so that two spellings of one SID
become one storage key. The decimal digits of every script are accepted, as
the pattern's digit class does; the canonical form is ASCII.
-/

set_option autoImplicit false

namespace Adg.SecurityIdentifier
open Adg.Observation

/-- `str.isspace`, which decides what `str.strip` removes. -/
def isSpace (c : Char) : Bool :=
  c.toNat ∈ [0x9, 0xa, 0xb, 0xc, 0xd, 0x1c, 0x1d, 0x1e, 0x1f, 0x20, 0x85, 0xa0,
    0x1680, 0x2000, 0x2001, 0x2002, 0x2003, 0x2004, 0x2005, 0x2006, 0x2007, 0x2008,
    0x2009, 0x200a, 0x2028, 0x2029, 0x202f, 0x205f, 0x3000]

def strip (text : List Char) : List Char :=
  ((text.dropWhile isSpace).reverse.dropWhile isSpace).reverse

/-- The code points of the decimal digit zero, one for each script. -/
def decimalZeros : List ℕ :=
  [0x30, 0x660, 0x6f0, 0x7c0, 0x966, 0x9e6, 0xa66, 0xae6, 0xb66, 0xbe6, 0xc66, 0xce6,
    0xd66, 0xde6, 0xe50, 0xed0, 0xf20, 0x1040, 0x1090, 0x17e0, 0x1810, 0x1946, 0x19d0,
    0x1a80, 0x1a90, 0x1b50, 0x1bb0, 0x1c40, 0x1c50, 0xa620, 0xa8d0, 0xa900, 0xa9d0,
    0xa9f0, 0xaa50, 0xabf0, 0xff10, 0x104a0, 0x10d30, 0x11066, 0x110f0, 0x11136, 0x111d0,
    0x112f0, 0x11450, 0x114d0, 0x11650, 0x116c0, 0x11730, 0x118e0, 0x11950, 0x11c50,
    0x11d50, 0x11da0, 0x16a60, 0x16ac0, 0x16b50, 0x1d7ce, 0x1d7d8, 0x1d7e2, 0x1d7ec,
    0x1d7f6, 0x1e140, 0x1e2f0, 0x1e950, 0x1fbf0]

def decimalDigit (c : Char) : Option ℕ :=
  (decimalZeros.find? fun z => z ≤ c.toNat && c.toNat < z+10).map (c.toNat - ·)

def hexDigit (c : Char) : Option ℕ :=
  if '0' ≤ c ∧ c ≤ '9' then some (c.toNat-0x30)
  else if 'a' ≤ c ∧ c ≤ 'f' then some (c.toNat-0x61+10)
  else if 'A' ≤ c ∧ c ≤ 'F' then some (c.toNat-0x41+10)
  else none

/-- A run of `1..most` digits read in `base`, or nothing when it is not one. -/
def number (digit : Char → Option ℕ) (base most : ℕ) (text : List Char) : Option ℕ :=
  if text = [] ∨ most < text.length then none
  else text.foldl (fun acc c => do return (← acc)*base+(← digit c)) (some 0)

def authorityOf (text : List Char) : Option ℕ :=
  match text with
  | '0' :: 'x' :: rest => number hexDigit 16 12 rest
  | '0' :: 'X' :: rest => number hexDigit 16 12 rest
  | _ => number decimalDigit 10 20 text

def maxUint32 : ℕ := 2^32-1
def maxAuthority : ℕ := 2^48-1
def maxSubAuthorities : ℕ := 15
def sidRevision : ℕ := 1

structure SidParts where
  revision : ℕ
  authority : ℕ
  subAuthorities : List ℕ

/-- The groups of `_SID_RE`, or nothing when the text does not match it. -/
def matchSid (text : List Char) : Option SidParts :=
  match text.splitOn '-' with
  | ['S'] :: revision :: authority :: subs => do
    return ⟨← number decimalDigit 10 10 revision, ← authorityOf authority,
      ← subs.mapM (number decimalDigit 10 10)⟩
  | _ => none

def hexUpper12 (n : ℕ) : String :=
  let digits := (Nat.toDigits 16 n).map Char.toUpper
  String.ofList (List.replicate (12-digits.length) '0' ++ digits)

def renderSid (parts : SidParts) : String :=
  let authority := if maxUint32 < parts.authority then "0x" ++ hexUpper12 parts.authority
    else toString parts.authority
  "-".intercalate (["S", toString parts.revision, authority] ++
    parts.subAuthorities.map toString)

/-- `_canonicalize_sid`. -/
def canonicalizeSid (raw : String) : Except DomainError String := do
  let text := strip raw.toList
  if text = [] then
    throw { message := "A SID must not be empty.", field := "sid" }
  let cased := match text with
    | 's' :: rest => 'S' :: rest
    | _ => text
  let some parts := matchSid cased
    | throw { message := s!"'{raw}' is not a valid string-form SID. Expected S-R-IA[-SA...], for example S-1-5-21-1004336348-1177238915-682003330-512.", field := "sid" }
  if parts.revision ≠ sidRevision then
    throw { message := s!"SID revision must be 1; '{raw}' declares {parts.revision}.", field := "sid" }
  if maxAuthority < parts.authority then
    throw { message := s!"SID identifier authority exceeds 48 bits in '{raw}'.", field := "sid" }
  if maxSubAuthorities < parts.subAuthorities.length then
    throw { message := s!"A SID may have at most 15 sub-authorities; '{raw}' has {parts.subAuthorities.length}.", field := "sid" }
  match parts.subAuthorities.find? (maxUint32 < ·) with
  | some sub => throw { message := s!"SID sub-authority {sub} exceeds 32 bits in '{raw}'.", field := "sid" }
  | none => return renderSid parts

/-- A canonical SID. The only way to hold one is through the canonicalizer. -/
structure Sid where
  value : String
  canonical : ∃ raw, canonicalizeSid raw = .ok value

def Sid.parse (raw : String) : Except DomainError Sid :=
  match h : canonicalizeSid raw with
  | .ok value => .ok ⟨value, raw, h⟩
  | .error e => .error e

theorem parse_value {raw : String} {sid : Sid} (h : Sid.parse raw = .ok sid) :
    canonicalizeSid raw = .ok sid.value := by
  unfold Sid.parse at h
  split at h
  · next value hv => cases h; exact hv
  · cases h

def builtinPrefix : String := "S-1-5-32-"

def Sid.isBuiltin (sid : Sid) : Bool := builtinPrefix.toList.isPrefixOf sid.value.toList

/-- The canonicalizer collapses case, leading zeros and surrounding blanks. -/
example : (canonicalizeSid " s-1-05-32-0544 ").toOption = some "S-1-5-32-544" := by decide

end Adg.SecurityIdentifier
