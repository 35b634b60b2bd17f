import Adg.SecurityIdentifier

/-!
# Resource paths

One directory has one spelling. A UNC path is parsed into a server, a share
and what lies beneath it, and is compared case-folded while the text that was
observed is kept.
-/

set_option autoImplicit false

namespace Adg.ResourcePath
open Adg.Observation Adg.SecurityIdentifier
open Adg.Fallible (bind_ok)

def separator : Char := '\\'
def uncMark : List Char := [separator, separator]

/-- `EXTENDED_PREFIXES`, each with whether it stands for a UNC path. -/
def extendedPrefixes : List (List Char × Bool) :=
  [(uncMark ++ ['?', separator, 'U', 'N', 'C', separator],true),
    (uncMark ++ ['.', separator, 'U', 'N', 'C', separator],true),
    (uncMark ++ ['?', separator],false), (uncMark ++ ['.', separator],false)]

/-- `_INVALID_COMPONENT_CHARS`. -/
def invalidComponentChar (c : Char) : Bool :=
  c.toNat < 0x20 ∨ c ∈ ['<', '>', ':', '"', '/', separator, '|', '?', '*']

/-- `repr` of one forbidden character. -/
def charRepr (c : Char) : String :=
  let escaped := if c = separator then "\\\\" else if c = '\t' then "\\t" else if c = '\n' then "\\n"
    else if c = '\r' then "\\r"
    else if c.toNat < 0x10 then "\\x0" ++ String.ofList (Nat.toDigits 16 c.toNat)
    else if c.toNat < 0x20 then "\\x" ++ String.ofList (Nat.toDigits 16 c.toNat)
    else String.singleton c
  "'" ++ escaped ++ "'"

/-- `_validate_component`. -/
def validateComponent (component : List Char) (name : String) : Except DomainError Unit := do
  if component = [] then
    throw { message := s!"A {name} must not be empty.", field := name }
  if component = ['.'] ∨ component = ['.', '.'] then
    throw { message := s!"A {name} must not be '.' or '..'; relative traversal cannot be resolved without touching the file system.", field := name }
  let invalid := ((component.filter invalidComponentChar).dedup).insertionSort (· ≤ ·)
  if invalid ≠ [] then
    let rendered := ", ".intercalate (invalid.map charRepr)
    let received := String.ofList component
    throw { message := s!"A {name} may not contain {rendered}; received '{received}'.", field := name }

def segmentsOf (relative : List Char) : List (List Char) :=
  (relative.splitOn separator).filter (· ≠ [])

/-- Check every item, stopping at the first that fails. -/
def checkAll {α : Type} (check : α → Except DomainError Unit) : List α → Except DomainError Unit
  | [] => .ok ()
  | x :: xs => check x >>= fun _ => checkAll check xs

theorem checkAll_ok {α : Type} {check : α → Except DomainError Unit} {xs : List α}
    (h : checkAll check xs = .ok ()) : ∀ x ∈ xs, check x = .ok () := by
  induction xs with
  | nil => simp
  | cons x xs ih =>
    obtain ⟨_,hx,hxs⟩ := bind_ok.mp h
    intro y hy
    rcases List.mem_cons.mp hy with rfl | hy
    · exact hx
    · exact ih hxs y hy

/-- A UNC path whose components passed `__post_init__`. -/
structure UncPath where
  server : List Char
  share : List Char
  relativePath : List Char := []
  server_valid : validateComponent server "server" = .ok ()
  share_valid : validateComponent share "share" = .ok ()
  segments_valid : ∀ s ∈ segmentsOf relativePath, validateComponent s "path segment" = .ok ()

namespace UncPath

/-- `__post_init__`, in the order the source checks. -/
def build (server share relativePath : List Char) : Except DomainError UncPath :=
  if server = [] then
    .error { message := "A UNC path must name a server.", field := "server" }
  else if share = [] then
    .error { message := "A UNC path must name a share.", field := "share" }
  else match hs : validateComponent server "server", hn : validateComponent share "share",
      h : checkAll (validateComponent · "path segment") (segmentsOf relativePath) with
    | .ok (), .ok (), .ok () => .ok ⟨server,share,relativePath,hs,hn,checkAll_ok h⟩
    | .error e, _, _ | .ok (), .error e, _ | .ok (), .ok (), .error e => .error e

def value (p : UncPath) : String :=
  let base := uncMark ++ p.server ++ separator :: p.share
  String.ofList (if p.relativePath = [] then base else base ++ separator :: p.relativePath)

def isShareRoot (p : UncPath) : Bool := p.relativePath = []

end UncPath

/-- `_strip_extended_prefix`: the rest, and whether the prefix named a UNC path. -/
def stripExtendedPrefix (text : List Char) : List Char × Bool :=
  match extendedPrefixes.find? fun p => p.1.isPrefixOf (text.map Char.toUpper) with
  | some (mark,isUnc) =>
    let rest := text.drop mark.length
    (if isUnc then uncMark ++ rest else rest,isUnc)
  | none => (text,false)

/-- A run of separators becomes one. -/
def collapse : List Char → List Char
  | [] => []
  | c :: cs => if c = separator ∧ cs.head? = some separator then collapse cs else c :: collapse cs

/-- `_normalize_separators`. -/
def normalizeSeparators (text : List Char) : List Char :=
  let collapsed := text.map fun c => if c = '/' then separator else c
  if uncMark.isPrefixOf collapsed then uncMark ++ collapse (collapsed.drop 2)
  else collapse collapsed

/-- `_clean_segments`. -/
def cleanSegments (original : String) (segments : List (List Char)) :
    Except DomainError (List (List Char)) :=
  let kept := segments.filter fun s => s ≠ [] ∧ s ≠ ['.']
  if ['.', '.'] ∈ kept then
    .error { message := s!"'{original}' contains '..'. A resource path must be stated in resolved form; ADG will not guess what it refers to.", field := "path" }
  else .ok kept

/-- `parse_unc_path`. -/
def parseUncPath (raw : String) : Except DomainError UncPath := do
  let text := strip raw.toList
  if text = [] then
    throw { message := "A UNC path must be a non-empty string." }
  let text := normalizeSeparators (stripExtendedPrefix (normalizeSeparators text)).1
  if ¬ uncMark.isPrefixOf text then
    throw { message := s!"'{raw}' is not a UNC path. Expected \\\\server\\share[\\path].", field := "path" }
  match ← cleanSegments raw ((text.drop 2).splitOn separator) with
  | server :: share :: rest => UncPath.build server share ([separator].intercalate rest)
  | _ =>
    throw { message := s!"'{raw}' names no share. Expected \\\\server\\share[\\path].", field := "path" }

section Folding
variable (casefold : String → String)

/-- `comparison_key`: the text by which two spellings are one directory. -/
def UncPath.comparisonKey (p : UncPath) : String := casefold p.value

/-- `server|share`, the identity a share is stored under. -/
def UncPath.shareKey (p : UncPath) : String :=
  casefold (String.ofList p.server) ++ "|" ++ casefold (String.ofList p.share)

end Folding

/-- Slashes, repeated separators and an extended prefix are one spelling. -/
example : (parseUncPath "//?/unc/FS01//Finance/./Reports/").map UncPath.value =
    .ok "\\\\FS01\\Finance\\Reports" := by decide

end Adg.ResourcePath
