import SudoOS.Mm.Fault
import SudoOS.Theorems.PageTableUse

/-!
Permission is decided twice: by the fault handler from the flags of an area, and by the hardware from the leaf that is made
of the same flags.
-/

namespace SudoOS

open PageTableEntry RuntimePageTable

/-- The area in whose name a fault is served. -/
def FaultOutcome.granting : FaultOutcome → Option VmArea
  | .mapAnonymous area | .copyOnWrite area | .loadFile area _ _ | .mapDevice area _ | .spurious area => some area
  | .protectionViolation _ | .segmentationViolation | .kernelBug => none

/-- A leaf with these rights lets the program or the kernel make the access. -/
def PageTableEntry.Rights.Permits (r : Rights) (source : FaultSource) (access : FaultAccess) : Prop :=
  (source = .user → r.user = true) ∧
    match access with
    | .read => r.permissions.readable = true
    | .write => r.permissions.writable = true
    | .execute => r.permissions.executable = true

instance (r : Rights) (source : FaultSource) (access : FaultAccess) : Decidable (r.Permits source access) := by
  cases access <;> (unfold Rights.Permits; infer_instance)

/-- The flags make a leaf: the area is readable, and it executes neither a device nor what the kernel writes. -/
@[mk_iff]
structure VmAreaFlags.Mappable (f : VmAreaFlags) : Prop where
  read : f.read = true
  normal : f.execute = true → f.device = false
  exclusive : f.execute = true → f.write = true → f.user = true

theorem mappingOptions_mappable {area : VmArea} : area.mappingOptions.Mappable ↔ area.flags.Mappable := by
  obtain ⟨range, ⟨read, write, execute, user, _, _, _, _, _, device⟩, kind⟩ := area
  rw [VmAreaFlags.mappable_iff, MappingOptions.Mappable]
  cases read
  · exact ⟨fun h => (by cases h.1), fun h => (by cases h.1)⟩
  cases execute <;> cases write <;> cases user <;> cases device <;>
    simp [VmArea.mappingOptions, MappingOptions.validate, PagePermissions.isEmpty, PagePermissions.empty,
      PagePermissions.readOnly, PagePermissions.readWrite, PagePermissions.readExecute, PagePermissions.readWriteExecute]

theorem mappingOptions_permissions {area : VmArea} (h : area.flags.read = true) :
    area.mappingOptions.permissions = ⟨true, area.flags.write, area.flags.execute⟩ := by
  unfold VmArea.mappingOptions
  rw [h]
  cases area.flags.write <;> cases area.flags.execute <;> rfl

theorem PageFault.resolve_granting {fault : PageFault} {space : AddressSpace} {outcome : FaultOutcome} {area : VmArea}
    (h : fault.resolve space = some outcome) (hgrants : outcome.granting = some area) :
    accessAllowed area.flags fault.access = true := by
  unfold resolve at h
  split at h
  · split at h <;> cases h <;> cases hgrants
  · split_ifs at h with hcow hallowed hpresent
    · cases h
      cases hgrants
      rw [hcow.2.1, accessAllowed, hcow.2.2, Bool.or_true]
    · cases h
      cases hgrants
    · cases h
      cases hgrants
      simpa using hallowed
    · split at h
      · cases h
        cases hgrants
        simpa using hallowed
      · cases h
        cases hgrants
        simpa using hallowed
      · cases h
        cases hgrants
        simpa using hallowed
      · obtain ⟨offset, -, rfl⟩ := Option.map_eq_some_iff.1 h
        cases hgrants
        simpa using hallowed
      · cases h
        cases hgrants
        simpa using hallowed
      · cases h
        cases hgrants
        simpa using hallowed
      · cases h
        cases hgrants
      · cases h
        cases hgrants

/-- The leaf of a granted access permits it exactly if the flags make a leaf, say who may use it, and grant a write
themselves. -/
theorem granted_access_possible {fault : PageFault} {space : AddressSpace} {outcome : FaultOutcome} {area : VmArea}
    {frame : Nat}
    (hresolve : fault.resolve space = some outcome) (hgrants : outcome.granting = some area) (hframe : frame < 2 ^ 44) :
    (∃ raw, leaf frame area.mappingOptions = .ok raw ∧ (rights raw).Permits fault.source fault.access) ↔
      area.flags.Mappable ∧ (fault.source = .user → area.flags.user = true) ∧
        (fault.access = .write → area.flags.write = true) := by
  have hallowed := PageFault.resolve_granting hresolve hgrants
  have huser : area.mappingOptions.user = area.flags.user := rfl
  constructor
  · rintro ⟨raw, hleaf, hsource, haccess⟩
    have hmappable := mappingOptions_mappable.1 (leaf_ok_iff.1 ⟨raw, hleaf⟩).1
    rw [(leaf_eq_ok hleaf).2.2.2, optionsRights] at hsource haccess
    refine ⟨hmappable, hsource, fun hwrite => ?_⟩
    rw [hwrite, mappingOptions_permissions hmappable.read] at haccess
    exact haccess
  · rintro ⟨hmappable, hsource, hwrite⟩
    obtain ⟨raw, hleaf⟩ := leaf_ok_iff.2 ⟨mappingOptions_mappable.2 hmappable, hframe⟩
    refine ⟨raw, hleaf, ?_, ?_⟩
    · rw [(leaf_eq_ok hleaf).2.2.2]
      exact hsource
    · rw [(leaf_eq_ok hleaf).2.2.2, optionsRights, mappingOptions_permissions hmappable.read]
      cases haccess : fault.access with
      | read => rfl
      | write => exact hwrite haccess
      | execute =>
        rw [haccess] at hallowed
        exact hallowed

def onePageSpace (flags : VmAreaFlags) : AddressSpace where
  userRange := userRange
  areas := ⟨[⟨.fromBounds 0x1000 0x2000, flags, .anonymous⟩]⟩
  programBreak := none

/-- An instruction is fetched from an area that may be read and executed. -/
theorem granted_access_possible_text : ∃ raw,
    leaf 2 (VmArea.mk (.fromBounds 0x1000 0x2000)
      { read := true, execute := true, user := true } .anonymous).mappingOptions = .ok raw ∧ (rights raw).Permits .user .execute := by
  have hresolve : PageFault.resolve ⟨0x1000, .execute, .user, false⟩
      (onePageSpace { read := true, execute := true, user := true }) = some (.mapAnonymous _) := rfl
  exact (granted_access_possible hresolve rfl (by decide)).2
    ⟨⟨rfl, fun _ => rfl, fun _ _ => rfl⟩, fun _ => rfl, fun h => nomatch h⟩

/-- An area that may only be executed is valid, and a fetch from it is granted; no leaf can be made of its flags. -/
theorem execute_only_has_no_leaf :
    validateArea ⟨.fromBounds 0x1000 0x2000, { execute := true, user := true }, .anonymous⟩ = .ok () ∧
    PageFault.resolve ⟨0x1000, .execute, .user, false⟩ (onePageSpace { execute := true, user := true }) =
      some (.mapAnonymous ⟨.fromBounds 0x1000 0x2000, { execute := true, user := true }, .anonymous⟩) ∧
    leaf 2 (VmArea.mk (.fromBounds 0x1000 0x2000) { execute := true, user := true } .anonymous).mappingOptions =
      .error (.invalidMappingOptions .noPermissions) :=
  ⟨rfl, rfl, rfl⟩

end SudoOS
