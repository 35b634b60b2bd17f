import Adg.ResolvedRights

/-!
# Unseen memberships and the lower bound

Two resolutions of one question, over an observed group set and over a larger
one. A larger token matches more entries of both kinds, so the smaller answer
is a lower bound exactly when no unseen deny is the first to name a bit that
both layers let through.
-/

set_option autoImplicit false

namespace Adg.LowerBound
open Adg.Observation Adg.RightsAlgebra Adg.AccessConditions Adg.AccessSubjects
open Adg.Evaluation Adg.FirstMatch Adg.AccessResolver Adg.ResolvedRights
open Adg.Fallible (mapped_ok)

/-- The second token carries every key the first one does. -/
def Carries (token token' : SubjectToken) : Prop :=
  ∀ key, token.contains key = true → token'.contains key = true

def assumedKeys (assumption : TokenAssumption) (path : AccessPath) : List String :=
  (assumedSids assumption path).map (·.1.val)

theorem assumed_origin {assumption : TokenAssumption} {path : AccessPath}
    {row : Key × SidOrigin} (h : row ∈ assumedSids assumption path) :
    row.2 ≠ .subject ∧ row.2 ≠ .groupMembership := by
  revert row
  cases assumption <;> cases path <;> decide

theorem holds_start (subject : SubjectFacts) (key : String) :
    (startOf subject).holds key = true ↔ key = subject.key := by
  simp [startOf, Collected.holds, subjectEntry]

theorem carried_holds (subject : SubjectFacts) (groups : List TokenSid) (path : AccessPath)
    (assumption : TokenAssumption) (key : String) :
    (carriedEntries subject groups path assumption).holds key = true ↔
      (observedEntries subject groups path).holds key = true ∨
        key ∈ assumedKeys assumption path := by
  unfold carriedEntries
  rw [Collected.holds_addAll, List.map_map]
  rfl

/-- Which keys a built token presents. -/
theorem buildToken_contains (subject : SubjectFacts) (groups : List TokenSid) (path : AccessPath)
    (assumption : Option TokenAssumption) (complete : Bool) (fs : List AccessFinding)
    (hp : presentsSubject subject path = true) (key : String) :
    (buildToken subject groups path assumption complete fs).contains key = true ↔
      key = subject.key ∨ key ∈ groups.map (·.key) ∨
        key ∈ assumedKeys (assumption.getD (defaultAssumption subject)) path := by
  have hcarried := carried_holds subject groups path
    (assumption.getD (defaultAssumption subject)) key
  have hobserved : observedEntries subject groups path =
      groups.foldl Collected.add (startOf subject) := by simp [observedEntries, hp]
  rw [hobserved, Collected.holds_addAll, holds_start, or_assoc] at hcarried
  rw [← hcarried, SubjectToken.contains_iff]
  simp [buildToken, Collected.holds, hp]

/-- A subject that is not presented brings neither itself nor its groups. -/
theorem buildToken_unpresented (subject : SubjectFacts) (groups : List TokenSid)
    (path : AccessPath) (assumption : Option TokenAssumption) (complete : Bool)
    (fs : List AccessFinding) (hp : presentsSubject subject path = false) :
    (buildToken subject groups path assumption complete fs).entries =
      (carriedEntries subject [] path (assumption.getD (defaultAssumption subject))).entries := by
  simp [buildToken, carriedEntries, observedEntries, hp]

theorem carries_of_groups {subject : SubjectFacts} {groups groups' : List TokenSid}
    (path : AccessPath) (assumption : Option TokenAssumption) (complete complete' : Bool)
    (fs fs' : List AccessFinding) (hg : ∀ g ∈ groups, g.key ∈ groups'.map (·.key)) :
    Carries (buildToken subject groups path assumption complete fs)
      (buildToken subject groups' path assumption complete' fs') := by
  intro key hkey
  cases hp : presentsSubject subject path with
  | true =>
    rw [buildToken_contains _ _ _ _ _ _ hp] at hkey ⊢
    rcases hkey with hself | hgroup | hassumed
    · exact .inl hself
    · obtain ⟨g,hg',rfl⟩ := List.mem_map.mp hgroup
      exact .inr (.inl (hg g hg'))
    · exact .inr (.inr hassumed)
  | false =>
    rw [SubjectToken.contains_iff] at hkey ⊢
    rw [buildToken_unpresented _ _ _ _ _ _ hp] at hkey ⊢
    exact hkey

section Widened
variable {token token' : SubjectToken}

theorem owner_carried {facts : DaclFacts} (h : Carries token token')
    (ho : HoldsOwner token facts) : HoldsOwner token' facts := by
  obtain ⟨key,hk,hc⟩ := ho
  exact ⟨key,hk,h key hc⟩

theorem counts_carried {facts : DaclFacts} {e : AclEntry} (h : Carries token token')
    (hc : counts token (ownerTokenSidOf token facts) e = true) :
    counts token' (ownerTokenSidOf token' facts) e = true := by
  unfold counts matchEntry at *
  simp only [Bool.and_eq_true] at hc ⊢
  refine ⟨hc.1,?_⟩
  cases hn : e.namesOwnerRights with
  | true =>
    simp only [hn, if_true] at hc ⊢
    exact holdsOwner_iff.mp (owner_carried h (holdsOwner_iff.mpr hc.2))
  | false =>
    simp only [hn] at hc ⊢
    exact h _ hc.2

theorem ownerGrant_carried {entries : List AclEntry} {facts : DaclFacts} {b : ℕ}
    (h : Carries token token') (hb : (ownerGrant entries token facts).getLsbD b = true) :
    (ownerGrant entries token' facts).getLsbD b = true := by
  rw [ownerGrant_bit] at hb ⊢
  exact ⟨owner_carried h hb.1,hb.2⟩

end Widened

/-- An ACL lets a bit through to a token: the owner holds it implicitly, or
the first counting entry that names it is an allow. -/
def LetsThrough (entries : List AclEntry) (token : SubjectToken) (facts : DaclFacts)
    (b : ℕ) : Prop :=
  (ownerGrant entries token facts).getLsbD b = true ∨
    ∃ e, decidingEntry entries token facts b = some e ∧ e.isAllow = true

/-- The first entry naming the bit that the larger token matches is a deny
the smaller one does not match, and ownership does not settle the bit first. -/
def UnseenDenyFirst (entries : List AclEntry) (token token' : SubjectToken) (facts : DaclFacts)
    (b : ℕ) : Prop :=
  (ownerGrant entries token' facts).getLsbD b = false ∧
    ∃ d, decidingEntry entries token' facts b = some d ∧ d.isAllow = false ∧
      counts token (ownerTokenSidOf token facts) d = false

/-- One layer: a bit let through is lost exactly to an unseen deny. -/
theorem lost_iff {token token' : SubjectToken} (h : Carries token token')
    (entries : List AclEntry) (facts : DaclFacts) (b : ℕ)
    (hb : LetsThrough entries token facts b) :
    ¬ LetsThrough entries token' facts b ↔ UnseenDenyFirst entries token token' facts b := by
  constructor
  · intro hlost
    have howner : (ownerGrant entries token' facts).getLsbD b = false := by
      cases hg : (ownerGrant entries token' facts).getLsbD b with
      | false => rfl
      | true => exact absurd (.inl hg) hlost
    rcases hb with hown | ⟨e,he,ha⟩
    · exact absurd (.inl (ownerGrant_carried h hown)) hlost
    · rw [decidingEntry_eq] at he
      obtain ⟨d,hd,hnew⟩ := OrderedRules.decider_widened entries _
        (counts token' (ownerTokenSidOf token' facts)) (fun e _ hc => counts_carried h hc) he
      have hdeny : d.isAllow = false := by
        cases hda : d.isAllow with
        | false => rfl
        | true => exact absurd (.inr ⟨d,by rw [decidingEntry_eq]; exact hd,hda⟩) hlost
      refine ⟨howner,d,by rw [decidingEntry_eq]; exact hd,hdeny,?_⟩
      rcases hnew with rfl | hnew
      · rw [ha] at hdeny
        cases hdeny
      · exact hnew
  · rintro ⟨howner,d,hd,hdeny,-⟩ hthrough
    rcases hthrough with hown | ⟨e,he,ha⟩
    · rw [howner] at hown
      cases hown
    · rw [hd] at he
      cases he
      rw [hdeny] at ha
      cases ha

/-- The entries and facts of every ACL a resolution crosses. -/
def crossedAcls (resource : ResourceDacl) (share : Option ShareDacl) :
    List (List AclEntry × DaclFacts) :=
  (if resource.daclPresent then [(resource.entries.take maxAclEntries,resource.facts)] else []) ++
  (match share with
    | none => []
    | some s => if s.observed then [(s.entries.take maxAclEntries,unownedPresentDacl)] else [])

/-- No crossed ACL stops the bit; a NULL DACL passes every file right. -/
def Unstopped (token : SubjectToken) (resource : ResourceDacl) (share : Option ShareDacl)
    (b : ℕ) : Prop :=
  (resource.daclPresent = false → fileAllAccess.getLsbD b = true) ∧
    ∀ acl ∈ crossedAcls resource share, LetsThrough acl.1 token acl.2 b

theorem resolvedMask_bit (token : SubjectToken) (resource : ResourceDacl)
    (share : Option ShareDacl) (b : ℕ) :
    (resolvedMask token resource share).getLsbD b = true ↔ Unstopped token resource share b := by
  have hntfs : (aclRights resource.entries token .ntfs resource.facts).getLsbD b = true ↔
      (resource.daclPresent = false → fileAllAccess.getLsbD b = true) ∧
      (resource.daclPresent = true →
        LetsThrough (resource.entries.take maxAclEntries) token resource.facts b) := by
    cases hp : resource.daclPresent with
    | true =>
      rw [aclRights_bit (show resource.facts.daclPresent = true from hp)]
      simp [LetsThrough]
    | false => simp [aclRights, ResourceDacl.facts, hp]
  have hfile : (∀ acl ∈ if resource.daclPresent then
      [(resource.entries.take maxAclEntries,resource.facts)] else [],
        LetsThrough acl.1 token acl.2 b) ↔
      (resource.daclPresent = true →
        LetsThrough (resource.entries.take maxAclEntries) token resource.facts b) := by
    cases resource.daclPresent <;> simp
  unfold resolvedMask Unstopped crossedAcls
  rw [List.forall_mem_append, hfile, ← and_assoc, ← hntfs]
  cases share with
  | none => simp
  | some s =>
    have hshare := aclRights_bit (show unownedPresentDacl.daclPresent = true from rfl)
      s.entries token .smbShare b
    cases ho : s.observed with
    | false => simp [ho]
    | true => simp [ho, hshare, LetsThrough, and_comm]

/-- No bit that gets through is named first by a deny of an unseen group. -/
def NoUnseenDenyFirst (token token' : SubjectToken) (resource : ResourceDacl)
    (share : Option ShareDacl) : Prop :=
  ∀ b, Unstopped token resource share b →
    ∀ acl ∈ crossedAcls resource share, ¬ UnseenDenyFirst acl.1 token token' acl.2 b

theorem subset_iff_bits (v v' : AccessMask) :
    v &&& ~~~v' = 0 ↔ ∀ b, v.getLsbD b = true → v'.getLsbD b = true := by
  constructor
  · intro h b hb
    have hclear := congrArg (fun x => BitVec.getLsbD x b) h
    have hlt : b < 32 := BitVec.lt_of_getLsbD hb
    simpa [hb, hlt] using hclear
  · intro h
    apply BitVec.eq_of_getLsbD_eq
    intro b hb
    cases hv : v.getLsbD b with
    | false => simp [hv]
    | true => simp [hv, h b hv, hb]

theorem narrowed_iff {token token' : SubjectToken} (h : Carries token token')
    (resource : ResourceDacl) (share : Option ShareDacl) :
    resolvedMask token resource share &&& ~~~resolvedMask token' resource share = 0 ↔
      NoUnseenDenyFirst token token' resource share := by
  rw [subset_iff_bits]
  simp only [resolvedMask_bit]
  constructor
  · intro hsub b hb acl hacl hunseen
    have hthrough := hb.2 acl hacl
    exact (lost_iff h acl.1 acl.2 b hthrough).mpr hunseen ((hsub b hb).2 acl hacl)
  · intro hno b hb
    refine ⟨hb.1,fun acl hacl => ?_⟩
    by_contra hlost
    exact hno b hb acl hacl ((lost_iff h acl.1 acl.2 b (hb.2 acl hacl)).mp hlost)

/-- The rights over the observed groups are a lower bound for every larger
group set exactly when no unseen deny comes first, whatever the certainty. -/
theorem observed_rights_lower_bound {subject : SubjectFacts} {groups groups' : List TokenSid}
    {path : AccessPath} {assumption : Option TokenAssumption} {complete complete' : Bool}
    {notes notes' findings findings' : List AccessFinding} {resource : ResourceDacl}
    {share : Option ShareDacl} {access access' : EffectiveAccess}
    (hgroups : ∀ g ∈ groups, g.key ∈ groups'.map (·.key))
    (h : resolveAccess (buildToken subject groups path assumption complete notes)
      resource share findings = .ok access)
    (h' : resolveAccess (buildToken subject groups' path assumption complete' notes')
      resource share findings' = .ok access') :
    access.rights.value &&& ~~~access'.rights.value = 0 ↔
      NoUnseenDenyFirst (buildToken subject groups path assumption complete notes)
        (buildToken subject groups' path assumption complete' notes') resource share := by
  rw [(resolveAccess_spec h).rights, (resolveAccess_spec h').rights]
  exact narrowed_iff (carries_of_groups path assumption complete complete' notes notes' hgroups)
    resource share

namespace Sample

def contractorsSid : String := "S-1-5-21-1-1-1-2002"

def contractors : TokenSid :=
  { key := contractorsSid, sid := contractorsSid, origin := .groupMembership, depth := 1
    path := [FirstMatch.Sample.aliceSid, contractorsSid] }

/-- A deny for a group ahead of an allow for the user. -/
def guarded : ResourceDacl :=
  .stored "//fs01/payroll"
    [FirstMatch.Sample.ace .deny contractorsSid NtfsRight.genericWrite (by decide),
      FirstMatch.Sample.ace .allow FirstMatch.Sample.aliceSid NtfsRight.genericAll
        FirstMatch.Sample.aliceSid_ne] (by decide)

/-- Alice's token, with the groups a traversal did or did not reach. -/
def tokenOver (groups : List TokenSid) (complete : Bool) : SubjectToken :=
  buildToken FirstMatch.Sample.alice groups .localPath none complete []

end Sample

theorem finance_brings_no_deny :
    NoUnseenDenyFirst (Sample.tokenOver [] false)
      (Sample.tokenOver [FirstMatch.Sample.finance] true) Sample.guarded none := by
  have hrights : (resolveAccess (Sample.tokenOver [] false) Sample.guarded none []).map
      (fun a => (a.certainty,a.rights.value)) = .ok (.atLeast,fileAllAccess) := by decide
  have hrights' : (resolveAccess (Sample.tokenOver [FirstMatch.Sample.finance] true)
      Sample.guarded none []).map (·.rights.value) = .ok fileAllAccess := by decide
  obtain ⟨access,h,hv⟩ := mapped_ok.mp hrights
  obtain ⟨access',h',hv'⟩ := mapped_ok.mp hrights'
  have hv : access.rights.value = fileAllAccess := congrArg Prod.snd hv
  exact (observed_rights_lower_bound (by simp) h h').mp (by rw [hv, hv']; decide)

/-- An unseen group denied ahead of the allow narrows an answer that was
reported as a lower bound. -/
theorem unseen_deny_narrows :
    ¬ ∀ (subject : SubjectFacts) (groups groups' : List TokenSid) (path : AccessPath)
      (assumption : Option TokenAssumption) (resource : ResourceDacl) (share : Option ShareDacl)
      (access access' : EffectiveAccess), (∀ g ∈ groups, g ∈ groups') →
      resolveAccess (buildToken subject groups path assumption false []) resource share [] =
        .ok access →
      resolveAccess (buildToken subject groups' path assumption true []) resource share [] =
        .ok access' →
      access.certainty = .atLeast → access.rights.value &&& ~~~access'.rights.value = 0 := by
  intro hclaim
  have hrights : (resolveAccess (Sample.tokenOver [] false) Sample.guarded none []).map
      (fun a => (a.certainty,a.rights.value)) = .ok (.atLeast,fileAllAccess) := by decide
  have hrights' : (resolveAccess (Sample.tokenOver [Sample.contractors] true)
      Sample.guarded none []).map (·.rights.value) =
      .ok (fileAllAccess &&& ~~~fileGenericWrite) := by decide
  obtain ⟨access,h,hv⟩ := mapped_ok.mp hrights
  obtain ⟨access',h',hv'⟩ := mapped_ok.mp hrights'
  have hsub := hclaim FirstMatch.Sample.alice [] [Sample.contractors] .localPath none
    Sample.guarded none access access' (by simp) h h' (congrArg Prod.fst hv)
  rw [show access.rights.value = fileAllAccess from congrArg Prod.snd hv, hv'] at hsub
  exact absurd hsub (by decide)

end Adg.LowerBound
