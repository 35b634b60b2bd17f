import Adg.SecurityIdentifier
import Adg.AccessConditions
import Adg.RightsAlgebra

/-!
# The subject and its token

An ACL is never evaluated against a user but against a token: the subject's
own key, the groups a traversal observed, and the SIDs one named assumption
adds. A token is built once and carries the reason for every entry.
-/

set_option autoImplicit false

namespace Adg.AccessSubjects
open Adg.Observation Adg.SecurityIdentifier Adg.AccessConditions Adg.RightsAlgebra

def everyoneSid : String := "S-1-1-0"
theorem everyoneSid_ne : everyoneSid ≠ "" := by decide

def authenticatedUsersSid : String := "S-1-5-11"
def anonymousLogonSid : String := "S-1-5-7"
def networkSid : String := "S-1-5-2"
def interactiveSid : String := "S-1-5-4"
def systemSid : String := "S-1-5-18"
def creatorOwnerSid : String := "S-1-3-0"
def creatorGroupSid : String := "S-1-3-1"
def ownerRightsSid : String := "S-1-3-4"

/-- `LOGON_SESSION_SIDS`: present or absent by session, not by principal. -/
def logonSessionSids : List String :=
  ["S-1-5-1", "S-1-5-2", "S-1-5-3", "S-1-5-4", "S-1-5-6", "S-1-5-13", "S-1-5-14", "S-1-2-0",
    "S-1-2-1", "S-1-5-64-10", "S-1-5-64-14", "S-1-5-64-21", "S-1-5-113", "S-1-5-114"]

inductive SidOrigin where
  | subject
  | groupMembership
  | wellKnown
  | logonType
  deriving DecidableEq, Repr

inductive TokenAssumption where
  | authenticatedUser
  | anonymous
  | sidsOnly
  deriving DecidableEq, Repr

def TokenAssumption.value : TokenAssumption → String
  | .authenticatedUser => "authenticated_user"
  | .anonymous => "anonymous"
  | .sidsOnly => "sids_only"

inductive SystemMapping where
  | confirmed
  | ambiguous
  | missing
  | conflicting
  deriving DecidableEq, Repr

def SystemMapping.value : SystemMapping → String
  | .confirmed => "confirmed"
  | .ambiguous => "ambiguous"
  | .missing => "missing"
  | .conflicting => "conflicting"

/-- `SYSTEM_MAPPING_CONDITIONS`. -/
def SystemMapping.condition : SystemMapping → AccessCondition
  | .confirmed => .systemMappingConfirmed
  | .ambiguous => .systemMappingAmbiguous
  | .missing => .systemMappingMissing
  | .conflicting => .systemMappingConflicting

/-- A key that the constructors accept: every storage key is non-empty. -/
abbrev Key := { key : String // key ≠ "" }

structure TokenSid where
  key : String
  sid : String
  origin : SidOrigin
  depth : ℕ := 0
  path : List String := []
  displayName : Option String := none
  key_ne : key ≠ "" := by decide
  deriving DecidableEq

namespace TokenSid

def isAssumed (t : TokenSid) : Bool := t.origin = .wellKnown || t.origin = .logonType

def isDirect (t : TokenSid) : Bool := t.origin = .subject || t.depth = 1

end TokenSid

structure SubjectFacts where
  key : String
  sid : String
  kind : Option PrincipalKind := none
  displayName : Option String := none
  enabled : Option Bool := none
  lastObservedRunId : Option String := none
  lastObservedAt : Option String := none
  key_ne : key ≠ "" := by decide
  sid_valid : (canonicalizeSid sid).isOk = true := by decide
  deriving DecidableEq

namespace SubjectFacts

def isGroup (s : SubjectFacts) : Bool :=
  s.kind = some .domainGroup || s.kind = some .localGroup

def isWellKnown (s : SubjectFacts) : Bool := s.kind = some .wellKnown

def resolved (s : SubjectFacts) : Bool := s.kind.isSome && s.kind ≠ some .unresolved

end SubjectFacts

def defaultAssumption (subject : SubjectFacts) : TokenAssumption :=
  if subject.sid = anonymousLogonSid then .anonymous
  else if subject.sid = systemSid || subject.isWellKnown then .sidsOnly
  else .authenticatedUser

def systemMappingOf (subject : SubjectFacts) (accessPath : AccessPath) : Option SystemMapping :=
  if subject.sid ≠ systemSid then none
  else if subject.kind.isSome && subject.kind ≠ some .wellKnown &&
      subject.kind ≠ some .unresolved then some .conflicting
  else if accessPath = .remoteSmb then some .ambiguous
  else if !subject.resolved then some .missing
  else some .confirmed

/-- No network logon carries the SYSTEM SID. -/
def presentsSubject (subject : SubjectFacts) (accessPath : AccessPath) : Bool :=
  !(subject.sid = systemSid && accessPath = .remoteSmb)

/-- The token. Its last two fields are what `__post_init__` checks. -/
structure SubjectToken where
  subject : SubjectFacts
  assumption : TokenAssumption
  accessPath : AccessPath
  entries : List TokenSid
  membershipComplete : Bool := true
  findings : List AccessFinding := []
  systemMapping : Option SystemMapping := none
  subjectPresented : Bool := true
  entries_ne : entries ≠ []
  keys_nodup : (entries.map (·.key)).Nodup

namespace SubjectToken

def keys (t : SubjectToken) : List String := t.entries.map (·.key)

def groupKeys (t : SubjectToken) : List String :=
  (t.entries.filter (·.origin = .groupMembership)).map (·.key)

def assumed (t : SubjectToken) : List TokenSid := t.entries.filter (·.isAssumed)

/-- The entry an ACE naming `key` matches. The subject's own entry is
withheld from a session that does not present it. -/
def entry (t : SubjectToken) (key : String) : Option TokenSid :=
  match t.entries.find? (·.key = key) with
  | none => none
  | some candidate =>
    if candidate.origin = .subject && !t.subjectPresented then none else some candidate

def contains (t : SubjectToken) (key : String) : Bool := (t.entry key).isSome

theorem entry_key {t : SubjectToken} {key : String} {e : TokenSid} (h : t.entry key = some e) :
    e ∈ t.entries ∧ e.key = key := by
  unfold entry at h
  split at h
  · cases h
  · next candidate hc =>
    split at h
    · cases h
    · cases h
      exact ⟨List.mem_of_find?_eq_some hc,by simpa using List.find?_some hc⟩

theorem find_of_nodup {entries : List TokenSid} (hn : (entries.map (·.key)).Nodup)
    {e : TokenSid} (he : e ∈ entries) : entries.find? (·.key = e.key) = some e := by
  induction entries with
  | nil => cases he
  | cons f fs ih =>
    rw [List.map_cons, List.nodup_cons] at hn
    rcases List.mem_cons.mp he with rfl | hin
    · simp
    · have hne : f.key ≠ e.key := fun h => hn.1 (h ▸ List.mem_map_of_mem hin)
      rw [List.find?_cons_of_neg (by simpa using hne)]
      exact ih hn.2 hin

/-- Keys are unique, so a presented entry is the one its key finds. -/
theorem entry_of_mem {t : SubjectToken} {e : TokenSid} (he : e ∈ t.entries)
    (hp : e.origin = .subject → t.subjectPresented = true) : t.entry e.key = some e := by
  unfold entry
  rw [find_of_nodup t.keys_nodup he]
  by_cases h : e.origin = .subject
  · simp [h, hp h]
  · simp [h]

theorem contains_iff {t : SubjectToken} {key : String} :
    t.contains key = true ↔
      ∃ e ∈ t.entries, e.key = key ∧ (e.origin = .subject → t.subjectPresented = true) := by
  constructor
  · intro h
    obtain ⟨e,he⟩ := Option.isSome_iff_exists.mp h
    refine ⟨e,(entry_key he).1,(entry_key he).2,fun ho => ?_⟩
    unfold entry at he
    split at he
    · cases he
    · split at he
      · cases he
      · next hc => cases he; simpa [ho] using hc
  · rintro ⟨e,he,rfl,hp⟩
    simp [contains, entry_of_mem he hp]

end SubjectToken

/-- `_assumed_sids`: broadest first. -/
def assumedSids (assumption : TokenAssumption) (accessPath : AccessPath) :
    List (Key × SidOrigin) :=
  let logon : Key :=
    match accessPath with
    | .remoteSmb => ⟨networkSid,by decide⟩
    | .localPath => ⟨interactiveSid,by decide⟩
  match assumption with
  | .sidsOnly => []
  | .authenticatedUser =>
    [(⟨everyoneSid,everyoneSid_ne⟩,.wellKnown), (⟨authenticatedUsersSid,by decide⟩,.wellKnown),
      (logon,.logonType)]
  | .anonymous =>
    [(⟨everyoneSid,everyoneSid_ne⟩,.wellKnown), (⟨anonymousLogonSid,by decide⟩,.wellKnown),
      (logon,.logonType)]

/-- `_system_mapping_finding`. -/
def systemMappingFinding (subject : SubjectFacts) (accessPath : AccessPath)
    (mapping : SystemMapping) (presented : Bool) (withheld : List String) : AccessFinding where
  condition := mapping.condition
  detail :=
    [("state", .text mapping.value), ("subject_sid", .text subject.sid),
      ("subject_key", .text subject.key), ("access_path", .text accessPath.value),
      ("presented", .flag presented),
      ("described_as", .optional (subject.kind.map (·.value))),
      ("described_name", .optional subject.displayName),
      ("expected_kind", .text PrincipalKind.wellKnown.value),
      ("last_observed_run_id", .optional subject.lastObservedRunId),
      ("last_observed_at", .optional subject.lastObservedAt),
      ("withheld_groups", .texts withheld)]

/-- The entries collected so far; a key already held is never taken twice. -/
structure Collected where
  entries : List TokenSid
  keys_nodup : (entries.map (·.key)).Nodup

namespace Collected

def holds (c : Collected) (key : String) : Bool := key ∈ c.entries.map (·.key)

/-- Take an entry unless its key is already held: first occurrence wins. -/
def add (c : Collected) (e : TokenSid) : Collected :=
  if h : c.holds e.key then c
  else
    { entries := c.entries ++ [e]
      keys_nodup := by
        rw [List.map_append, List.nodup_append]
        refine ⟨c.keys_nodup,by simp,?_⟩
        rintro a ha b hb rfl
        rw [List.map_singleton, List.mem_singleton] at hb
        exact h (by simpa [holds, hb] using ha) }

theorem add_extends (c : Collected) (e : TokenSid) : c.entries <+: (c.add e).entries := by
  unfold add
  split
  · exact List.prefix_refl _
  · exact List.prefix_append _ _

theorem mem_add {c : Collected} {e t : TokenSid} :
    t ∈ (c.add e).entries ↔ t ∈ c.entries ∨ (t = e ∧ c.holds e.key = false) := by
  unfold add
  split
  · next h => simp [h]
  · next h => simp [h]

theorem holds_add {c : Collected} {e : TokenSid} {key : String} :
    (c.add e).holds key = true ↔ c.holds key = true ∨ key = e.key := by
  unfold add
  split
  · next h =>
    constructor
    · exact .inl
    · rintro (hk | rfl)
      · exact hk
      · exact h
  · simp only [holds, List.map_append, List.map_cons, List.map_nil, List.mem_append,
      List.mem_singleton, decide_eq_true_eq]

/-- What a pass adds was offered, under a key not held before it. -/
theorem mem_addAll {c : Collected} {es : List TokenSid} {t : TokenSid}
    (h : t ∈ (es.foldl add c).entries) : t ∈ c.entries ∨ (t ∈ es ∧ c.holds t.key = false) := by
  induction es generalizing c with
  | nil => exact .inl h
  | cons e es ih =>
    rcases ih h with hin | ⟨hin,hfresh⟩
    · rcases mem_add.mp hin with hold | ⟨rfl,hfresh⟩
      · exact .inl hold
      · exact .inr ⟨List.mem_cons_self,hfresh⟩
    · refine .inr ⟨List.mem_cons_of_mem _ hin,?_⟩
      rw [← Bool.not_eq_true] at hfresh ⊢
      exact fun hheld => hfresh (holds_add.mpr (.inl hheld))

theorem addAll_extends (c : Collected) (es : List TokenSid) :
    c.entries <+: (es.foldl add c).entries := by
  induction es generalizing c with
  | nil => exact List.prefix_refl _
  | cons e es ih => exact (add_extends c e).trans (ih _)

/-- The keys held after a pass are those held before it and those offered. -/
theorem holds_addAll (c : Collected) (es : List TokenSid) (key : String) :
    (es.foldl add c).holds key = true ↔ c.holds key = true ∨ key ∈ es.map (·.key) := by
  induction es generalizing c with
  | nil => simp
  | cons e es ih => rw [List.foldl_cons, ih, holds_add, List.map_cons, List.mem_cons, or_assoc]

end Collected

/-- The subject's own entry, from which every token starts. -/
def subjectEntry (subject : SubjectFacts) : TokenSid where
  key := subject.key
  sid := subject.sid
  origin := .subject
  displayName := subject.displayName
  key_ne := subject.key_ne

def startOf (subject : SubjectFacts) : Collected := ⟨[subjectEntry subject],by simp⟩

/-- The groups of a subject that is not presented are named, not carried. -/
def withheldGroups (subject : SubjectFacts) (groups : List TokenSid) : List String :=
  groups.foldl (fun withheld g =>
    if g.key = subject.key || g.key ∈ withheld then withheld else withheld ++ [g.key]) []

def assumedEntry (row : Key × SidOrigin) : TokenSid where
  key := row.1.val
  sid := row.1.val
  origin := row.2
  key_ne := row.1.property

/-- The subject, then the observed groups unless they are withheld. -/
def observedEntries (subject : SubjectFacts) (groups : List TokenSid)
    (accessPath : AccessPath) : Collected :=
  if presentsSubject subject accessPath then groups.foldl Collected.add (startOf subject)
  else startOf subject

/-- The observed entries, then the assumed SIDs that are not among them. -/
def carriedEntries (subject : SubjectFacts) (groups : List TokenSid) (accessPath : AccessPath)
    (assumption : TokenAssumption) : Collected :=
  ((assumedSids assumption accessPath).map assumedEntry).foldl Collected.add
    (observedEntries subject groups accessPath)

theorem observed_extends (subject : SubjectFacts) (groups : List TokenSid)
    (accessPath : AccessPath) :
    [subjectEntry subject] <+: (observedEntries subject groups accessPath).entries := by
  unfold observedEntries
  split
  · exact Collected.addAll_extends (startOf subject) groups
  · exact List.prefix_refl _

theorem subject_carried (subject : SubjectFacts) (groups : List TokenSid)
    (accessPath : AccessPath) (assumption : TokenAssumption) :
    subjectEntry subject ∈ (carriedEntries subject groups accessPath assumption).entries :=
  ((observed_extends subject groups accessPath).trans (Collected.addAll_extends _ _)).subset
    (by simp)

/-- `build_token`. -/
def buildToken (subject : SubjectFacts) (groups : List TokenSid) (accessPath : AccessPath)
    (assumption : Option TokenAssumption) (membershipComplete : Bool)
    (findings : List AccessFinding) : SubjectToken :=
  let resolved := assumption.getD (defaultAssumption subject)
  let presented := presentsSubject subject accessPath
  let withheld := if presented then [] else withheldGroups subject groups
  let mapping := systemMappingOf subject accessPath
  let observed := observedEntries subject groups accessPath
  let collected := carriedEntries subject groups accessPath resolved
  let added := (collected.entries.drop observed.entries.length).map (·.key)
  { subject := subject
    assumption := resolved
    accessPath := accessPath
    entries := collected.entries
    membershipComplete := membershipComplete
    findings := findings ++
      (if subject.resolved then [] else
        [{ condition := .subjectUnresolved
           detail := [("subject_sid", .text subject.sid), ("subject_key", .text subject.key)] }]) ++
      (match mapping with
        | none => []
        | some m => [systemMappingFinding subject accessPath m presented withheld]) ++
      (if subject.isGroup then
        [{ condition := .subjectIsAGroup
           detail := [("subject_sid", .text subject.sid),
             ("kind", .optional (subject.kind.map (·.value)))] }] else []) ++
      (if subject.enabled = some false then
        [{ condition := .subjectDisabled
           detail := [("subject_sid", .text subject.sid),
             ("subject_key", .text subject.key)] }] else []) ++
      (if membershipComplete then [] else
        [{ condition := .membershipTruncated, detail := [("subject_key", .text subject.key)] }]) ++
      (if added = [] then [] else
        [{ condition := .assumedTokenSids
           detail := [("assumption", .text resolved.value),
             ("access_path", .text accessPath.value), ("sids", .texts added)] }])
    systemMapping := mapping
    subjectPresented := presented
    entries_ne := List.ne_nil_of_mem (subject_carried subject groups accessPath resolved)
    keys_nodup := collected.keys_nodup }

end Adg.AccessSubjects
