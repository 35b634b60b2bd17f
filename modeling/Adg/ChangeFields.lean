import Adg.CurrentState

/-!
# What a stored field means

Every column of every tracked kind is classified, and every kind says what
contains it and what it points at. A column that is not in the table has no
meaning rather than a harmless one.
-/

set_option autoImplicit false

namespace Adg.ChangeFields
open Adg.ObjectVersions

inductive FieldSignificance where
  | identity
  | security
  | metadata
  | noise
  | order
  | derived
  | unclassified
  deriving DecidableEq, Repr

/-- `FIELD_SIGNIFICANCE`. -/
def fieldSignificance : ObservationKind → List (String × FieldSignificance)
  | .principal =>
    [("principal_key",.identity), ("sid",.identity), ("principal_kind",.identity),
      ("host_key",.identity), ("domain_sid",.derived), ("display_name",.metadata),
      ("sam_account_name",.metadata), ("user_principal_name",.metadata),
      ("distinguished_name",.metadata), ("group_scope",.security), ("group_type",.security),
      ("enabled",.security), ("is_deleted",.security), ("unresolved_reason",.metadata),
      ("last_known_name",.metadata), ("source_key",.noise)]
  | .membershipEdge =>
    [("edge_key",.identity), ("group_key",.identity), ("member_key",.identity),
      ("group_sid",.identity), ("member_sid",.identity), ("edge_kind",.identity),
      ("host_key",.identity), ("member_kind",.metadata),
      ("is_foreign_security_principal",.metadata), ("source_key",.noise)]
  | .server =>
    [("server_key",.identity), ("name",.identity), ("dns_host_name",.metadata),
      ("netbios_name",.metadata), ("computer_sid",.security), ("domain_sid",.security),
      ("is_domain_member",.security), ("operating_system",.metadata), ("source_key",.noise)]
  | .smbShare =>
    [("share_key",.identity), ("server_key",.identity), ("name",.identity),
      ("local_path",.security), ("share_type",.security), ("description",.metadata),
      ("concurrent_user_limit",.metadata), ("caching_mode",.metadata), ("is_special",.metadata),
      ("source_key",.noise)]
  | .smbAce =>
    [("ace_key",.identity), ("share_key",.identity), ("trustee_sid",.identity),
      ("trustee_key",.identity), ("ace_type",.identity), ("access_mask",.identity),
      ("permission",.identity), ("right_token",.identity), ("order_index",.order),
      ("source_key",.noise)]
  | .ntfsResource =>
    [("resource_key",.identity), ("path",.identity), ("server_key",.identity),
      ("share_key",.identity), ("local_path",.metadata), ("owner_sid",.security),
      ("group_sid",.metadata), ("dacl_present",.security), ("dacl_protected",.security),
      ("inheritance_enabled",.security), ("is_acl_boundary",.derived),
      ("boundary_reason",.derived), ("ace_count",.derived), ("depth_from_share_root",.derived),
      ("resource_kind",.metadata), ("acl_hash",.security), ("parent_acl_hash",.metadata),
      ("source_key",.noise)]
  | .ntfsAce =>
    [("ace_key",.identity), ("resource_key",.identity), ("trustee_sid",.identity),
      ("trustee_key",.identity), ("ace_type",.identity), ("access_mask",.identity),
      ("ace_flags",.identity), ("source",.security), ("inherited_from",.metadata),
      ("order_index",.order), ("source_key",.noise)]

def significanceOf (kind : ObservationKind) (name : String) : Option FieldSignificance :=
  (fieldSignificance kind).lookup name

/-- `CONTAINER_KINDS`. -/
def containerKindOf : ObservationKind → Option ObservationKind
  | .principal => some .server
  | .membershipEdge => some .principal
  | .server => none
  | .smbShare => some .server
  | .smbAce => some .smbShare
  | .ntfsResource => some .smbShare
  | .ntfsAce => some .ntfsResource

/-- `RELATED_KINDS`. -/
def relatedKindOf : ObservationKind → Option ObservationKind
  | .principal | .server | .smbShare => none
  | .membershipEdge | .smbAce | .ntfsAce => some .principal
  | .ntfsResource => some .server

/-- The table gives a column one meaning. -/
theorem fieldSignificance_keys (kind : ObservationKind) :
    ((fieldSignificance kind).map (·.1)).Nodup := by
  cases kind <;> decide

/-- The provenance column is the noise of every kind, and nothing else is. -/
theorem significanceOf_noise (kind : ObservationKind) (name : String) :
    significanceOf kind name = some .noise ↔ name = sourceKey := by
  unfold significanceOf
  constructor
  · intro h
    obtain ⟨before,after,heq,-⟩ := List.lookup_eq_some_iff.mp h
    have hmem : (name,FieldSignificance.noise) ∈ fieldSignificance kind := by rw [heq]; simp
    cases kind <;> simpa [fieldSignificance, sourceKey] using hmem
  · rintro rfl
    cases kind <;> decide

end Adg.ChangeFields
