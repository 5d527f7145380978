import LicenseNotice.Manifest
import LicenseNotice.Proofs.Codec.Fields

/-! # Reading written targets back

Conditions, edges, targets and manifests are read from what they are written as, in either dialect.
-/

namespace LicenseNotice

set_option autoImplicit false

open Codec

namespace Condition

theorem ofDatum?_toDatum (dialect : Dialect) (c : Condition) :
    ofDatum? dialect c.toDatum = some c := by
  have hcategory : choice? dialect Category.ofName? (.text c.category.name) = some c.category :=
    Category.ofName?_name c.category
  rw [toDatum, ofDatum?, Fields.of?_ofFields _ _ (by simp) (by simp)]
  simp [Fields.required, Fields.optional, Fields.orElse_eq, hcategory]

theorem plain_toDatum (c : Condition) : c.toDatum.Plain :=
  Datum.plain_ofFields (by simp [Datum.Plain.text])

end Condition

namespace Edge

theorem ofDatum?_toDatum (dialect : Dialect) (e : Edge) : ofDatum? dialect e.toDatum = some e := by
  have hlinkage : choice? dialect Linkage.ofName? (.text e.linkage.name) = some e.linkage :=
    Linkage.ofName?_name e.linkage
  rw [toDatum, ofDatum?, Fields.of?_ofFields _ _ (by simp) (by simp)]
  simp [Fields.required, Fields.optional, Fields.orElse_eq, text?, hlinkage]

theorem plain_toDatum (e : Edge) : e.toDatum.Plain :=
  Datum.plain_ofFields (by simp [Datum.Plain.text])

end Edge

namespace Target

theorem ofDatum?_toDatum (dialect : Dialect) (t : Target) :
    ofDatum? dialect t.toDatum = some t := by
  have hkind : choice? dialect ArtifactKind.ofName? (.text t.kind.name) = some t.kind :=
    ArtifactKind.ofName?_name t.kind
  have hconditions := listOf?_map _ _ (Condition.ofDatum?_toDatum dialect) t.conditions
  have hdeps := listOf?_map _ _ (Edge.ofDatum?_toDatum dialect) t.deps
  rw [toDatum, ofDatum?, Fields.of?_ofFields _ _ (by simp) (by simp [fieldNames])]
  simp [Fields.required, Fields.optional, Fields.orElse_eq, text?, hkind, hconditions, hdeps]

theorem plain_toDatum (t : Target) : t.toDatum.Plain := by
  have hconditions := Datum.plain_list_map Condition.plain_toDatum t.conditions
  have hdeps := Datum.plain_list_map Edge.plain_toDatum t.deps
  exact Datum.plain_ofFields (by simp [Datum.Plain.text, hconditions, hdeps])

end Target

namespace Manifest

theorem ofDatum?_toDatum (dialect : Dialect) (m : Manifest) :
    ofDatum? dialect m.toDatum = some m := by
  have htargets := listOf?_map _ _ (Target.ofDatum?_toDatum dialect) m.targets
  rw [toDatum, ofDatum?, Fields.of?_ofFields _ _ (by simp) (by simp)]
  simp [Fields.placed, Fields.optional, Fields.orElse_eq, htargets]

theorem plain_toDatum (m : Manifest) : m.toDatum.Plain := by
  have htargets := Datum.plain_list_map Target.plain_toDatum m.targets
  exact Datum.plain_ofFields (by simp [htargets])

end Manifest

end LicenseNotice
