import SudoOS.Mm.UserSpace
import SudoOS.Kernel.PageTable

/-!
A user address space with its page table and its resident pages. Each call takes the lock of the address space, so it is one
program over the state. Outcomes of `try_reserve` and of the page allocator are read from the answer lists of the page-table
state.
-/

namespace SudoOS

open Program RuntimePageTable

/-! ### Bytes in physical memory -/

def replaceByte (word index value : Nat) : Nat :=
  word - word / 256 ^ index % 256 * 256 ^ index + value % 256 * 256 ^ index

namespace PageTableState

def loadByte (s : PageTableState) (physical : Nat) : Nat :=
  s.entry (physical / pageSize) (physical % pageSize / 8) / 256 ^ (physical % 8) % 256

def storeByte (s : PageTableState) (physical value : Nat) : PageTableState :=
  s.setEntry (physical / pageSize) (physical % pageSize / 8)
    (replaceByte (s.entry (physical / pageSize) (physical % pageSize / 8)) (physical % 8) value)

def storeBytes (s : PageTableState) (physical : Nat) : List Nat → PageTableState
  | [] => s
  | value :: rest => (s.storeByte physical value).storeBytes (physical + 1) rest

end PageTableState

/-! ### The address space -/

structure MappedPage where
  page : VirtPage
  backing : Nat
deriving DecidableEq

structure UserMmState where
  core : UserAddressSpace
  table : PageTableState
  pages : List MappedPage

inductive UserMmRuntimeError
  | addressOverflow
  | core (e : UserMmError)
  | invalidRange
  | metadataOutOfMemory
  | notMapped
  | pageAllocator
  | pageTable (e : RuntimePageTableError)
  | permissionDenied
deriving DecidableEq

inductive UserMmPanic
  | retirePreflight
  | retireFrame
  | retireReclaim
  | destroyPhysical
  | destroyFrame
  | destroyTables
  | mappedPageWithoutArea
  | protectLostArea
  | growthLostArea
  | growthRemovedOther
  | growthLostStack
  | core (p : UserSpacePanic)
deriving DecidableEq

inductive UserFaultRecovery
  | anonymous
  | stackGrowth
  | spurious
deriving DecidableEq

inductive UserFaultFailure
  | copyOnWriteUnsupported
  | protectionViolation
  | segmentationViolation
  | kernelBug
deriving DecidableEq

inductive UserFaultResolution
  | recovered (recovery : UserFaultRecovery)
  | fatal (failure : UserFaultFailure)
deriving DecidableEq

abbrev UserMmStop := Stop UserMmRuntimeError UserMmPanic

abbrev UserMmM := EStateM UserMmStop UserMmState

def vmaCapacity : Nat := 65536

namespace UserMm

def setTable (table : PageTableState) (s : UserMmState) : UserMmState := { s with table := table }

def setLayout (layout : AddressSpace) (s : UserMmState) : UserMmState := { s with core := { s.core with layout := layout } }

def coreStop : UserSpaceStop → UserMmStop
  | .error e => .error (.core e)
  | .panic p => .panic (.core p)

def onTable {α : Type} (x : PageTableM α) : UserMmM α := zoom UserMmState.table setTable (fun e => .error (.pageTable e)) x

def onCore {α : Type} (x : UserSpaceM α) : UserMmM α :=
  zoom UserMmState.core (fun core s => { s with core := core }) coreStop x

def onLayout {α : Type} (x : AddressSpaceM α) : UserMmM α := onCore (UserAddressSpace.onLayout x)

def expectLayout {α : Type} (p : UserMmPanic) (x : AddressSpaceM α) : UserMmM α :=
  zoom (fun s => s.core.layout) setLayout (fun _ => .panic p) x

def nextReserve : UserMmM Bool := do
  let s ← get
  set { s with table := { s.table with reserves := s.table.reserves.tail } }
  return s.table.reserves.head?.getD false

def tryReserve : UserMmM Unit := do
  if ← nextReserve then return () else throw (.error .metadataOutOfMemory)

def translate (address : Nat) : UserMmM (Option Nat) := do
  let s ← get
  match RuntimePageTable.translate s.table address with
  | .ok physical => return physical
  | .error e => throw (.error (.pageTable e))

def allocatePage : UserMmM Nat := do
  match ← onTable allocateZeroedTable with
  | some frame => return frame
  | none => throw (.error .pageAllocator)

def freePage (frame : Nat) (s : UserMmState) : UserMmState := setTable (freeTable s.table frame) s

/-! ### Residency -/

def mapZeroPageLocked (area : VmArea) (address : Nat) : UserMmM Nat := do
  match ← translate address with
  | some physical => return physical
  | none =>
    tryReserve
    let frame ← allocatePage
    match checkedAdd (frame * pageSize) (address % pageSize) with
    | none =>
      modify (freePage frame)
      throw (.error .addressOverflow)
    | some physical =>
      onError (onTable (mapPage (.containingAddress address) frame area.mappingOptions)) (freePage frame)
      modify fun s => { s with pages := s.pages ++ [⟨.containingAddress address, frame⟩] }
      return physical

def populatePage (address : Nat) : UserMmM Nat := do
  let area ← okOr ((← get).core.layout.findArea address) (.error .permissionDenied)
  mapZeroPageLocked area address

/-- The pages that are detached wait in `retired` of the table and in the result until they are out of every TLB. -/
structure RetirementBatch where
  request : Option PerMmTlbRequest
  backings : List Nat

def swapRemovePage (pages : List MappedPage) (index : Nat) : List MappedPage :=
  match pages.getLast? with
  | some last => (pages.set index last).dropLast
  | none => []

/-- The removal loop of `retire_range_locked`; each round goes on by one page or takes one out, so that the number of pages
is enough fuel. -/
def retireLoop (range : VirtRange) : (fuel index : Nat) → (backings : List Nat) → UserMmM (List Nat)
  | 0, _, backings => return backings
  | fuel + 1, index, backings => do
    match (← get).pages[index]? with
    | none => return backings
    | some mapping =>
      if ¬range.contains mapping.page.start then retireLoop range fuel (index + 1) backings
      else
        modify fun s => { s with pages := swapRemovePage s.pages index }
        match ← translate mapping.page.start with
        | some _ =>
          let frame ← onTable (unmapPage mapping.page)
          require (frame = mapping.backing) .retireFrame
        | none => pure ()
        zoom UserMmState.table setTable (fun _ => .panic .retireReclaim) (reclaimEmptyTables mapping.page)
        retireLoop range fuel index (backings ++ [mapping.backing])

def retireRangeLocked (range : VirtRange) : UserMmM RetirementBatch := do
  let s ← get
  if s.pages.countP (fun mapping => range.contains mapping.page.start) = 0 then return ⟨none, []⟩
  else
    s.pages.forM fun mapping =>
      if range.contains mapping.page.start then do
        match ← translate mapping.page.start with
        | some physical => require (physical = mapping.backing * pageSize) .retirePreflight
        | none => pure ()
      else pure ()
    tryReserve
    tryReserve
    let request ← onCore (UserAddressSpace.planTlbRequest (.range (.addressSpace s.core.asid.id) range))
    let backings ← retireLoop range s.pages.length 0 []
    return ⟨some request, backings⟩

def finishRetirement (batch : RetirementBatch) : UserMmM Unit := do
  modify fun s => setTable (freeTables batch.backings s.table) s
  onTable freeRetired

/-! ### Mappings -/

def configureProgramBreak (start limit : Nat) : UserMmM Unit := onLayout (AddressSpace.configureProgramBreak start limit)

def setProgramBreak (newBreak : Nat) : UserMmM Nat := do
  let oldLayout := (← get).core.layout
  let old ← okOr oldLayout.programBreak (.error .invalidRange)
  let reserveRemove ← nextReserve
  let reserveInsert ← nextReserve
  let current ← onLayout (AddressSpace.setProgramBreakAndSyncHeap vmaCapacity reserveRemove reserveInsert newBreak)
  let oldEnd ← okOr (alignUp old.current pageSize) (.error .addressOverflow)
  let newEnd ← okOr (alignUp current pageSize) (.error .addressOverflow)
  if newEnd < oldEnd then
    let range ← okOr (VirtRange.new newEnd oldEnd) (.error .invalidRange)
    let batch ← onError (retireRangeLocked range) (setLayout oldLayout)
    finishRetirement batch
    return current
  else return current

def mapAnonymous (search : VirtRange) (size : Nat) (flags : VmAreaFlags) : UserMmM Nat := do
  let reserve ← nextReserve
  let area ← onLayout (AddressSpace.mapAnonymous vmaCapacity reserve search size pageSize flags)
  return area.range.start

def mapAnonymousExact (range : VirtRange) (flags : VmAreaFlags) : UserMmM Nat := do
  let reserve ← nextReserve
  onLayout (AddressSpace.mapArea vmaCapacity reserve ⟨range, flags, .anonymous⟩)
  return range.start

def replaceAnonymousExact (range : VirtRange) (flags : VmAreaFlags) : UserMmM Nat := do
  let oldLayout := (← get).core.layout
  let reserveUnmap ← nextReserve
  let _ ← onLayout (AddressSpace.unmapRange vmaCapacity reserveUnmap range)
  let reserveMap ← nextReserve
  onError (onLayout (AddressSpace.mapArea vmaCapacity reserveMap ⟨range, flags, .anonymous⟩)) (setLayout oldLayout)
  let batch ← onError (retireRangeLocked range) (setLayout oldLayout)
  finishRetirement batch
  return range.start

def unmapRange (range : VirtRange) : UserMmM Unit := do
  let oldLayout := (← get).core.layout
  let reserve ← nextReserve
  let _ ← onLayout (AddressSpace.unmapRange vmaCapacity reserve range)
  let batch ← onError (retireRangeLocked range) (setLayout oldLayout)
  finishRetirement batch

def anonymousScan (layout : AddressSpace) (range : VirtRange) : (fuel cursor : Nat) → Except UserMmStop Bool
  | 0, _ => .ok false
  | fuel + 1, cursor =>
    match layout.findArea cursor with
    | none => .error (.error .notMapped)
    | some area =>
      if area.kind ≠ .anonymous then .ok false
      else if min area.range.end_ range.end_ = range.end_ then .ok true
      else anonymousScan layout range fuel (min area.range.end_ range.end_)

def discardAnonymousRange (range : VirtRange) : UserMmM Unit := do
  let s ← get
  if ← ofExcept (anonymousScan s.core.layout range (s.core.layout.areas.areas.length + 1) range.start) then
    let batch ← retireRangeLocked range
    finishRetirement batch
  else return ()

/-! ### Protection -/

def applyPageProtection (page : VirtPage) (frame : Nat) (area : VmArea) : PageTableM Unit :=
  if area.flags.accessOnly = .empty then do
    match ← attempt id (fun t _ => t) (unmapPage page) with
    | .ok _ => return ()
    | .error .notMapped => return ()
    | .error e => throw e
  else do
    match ← attempt id (fun t _ => t) (protectPage page area.mappingOptions) with
    | .ok _ => return ()
    | .error .notMapped => mapPage page frame area.mappingOptions
    | .error e => throw e

def alreadyProtected (layout : AddressSpace) (range : VirtRange) (access : VmAreaFlags) : (fuel cursor : Nat) → Bool
  | 0, _ => false
  | fuel + 1, cursor =>
    match layout.findArea cursor with
    | none => false
    | some area =>
      let same : Bool := area.flags.accessOnly = access.accessOnly
      if min area.range.end_ range.end_ = range.end_ then same
      else same && alreadyProtected layout range access fuel (min area.range.end_ range.end_)

structure ChangedPage where
  page : VirtPage
  oldArea : VmArea
  frame : Nat

def residentFrame (address : Nat) (page : VirtPage) : UserMmM (Option Nat) := do
  match ← translate address with
  | some physical => if physical % pageSize = 0 then return some (physical / pageSize) else throw (.error .addressOverflow)
  | none => return ((← get).pages.find? fun mapping => mapping.page = page).map MappedPage.backing

def changedPages (oldLayout : AddressSpace) : (count address : Nat) → UserMmM (List ChangedPage)
  | 0, _ => return []
  | count + 1, address => do
    let page ← okOr (VirtPage.fromStartAddress address) (.error .invalidRange)
    let changed ← do
      match ← residentFrame address page with
      | none => pure []
      | some frame =>
        let oldArea ← okOr (oldLayout.findArea address) (.panic .mappedPageWithoutArea)
        pure [ChangedPage.mk page oldArea frame]
    let next ← okOr (checkedAdd address pageSize) (.error .addressOverflow)
    let rest ← changedPages oldLayout count next
    return changed ++ rest

def attemptTable {α : Type} (x : PageTableM α) : UserMmM (Except RuntimePageTableError α) :=
  attempt UserMmState.table setTable x

def restorePages : List ChangedPage → UserMmM Unit
  | [] => return ()
  | changed :: rest => do
    let _ ← attemptTable (applyPageProtection changed.page changed.frame changed.oldArea)
    restorePages rest

def fallbackLoop (access : VmAreaFlags) : List ChangedPage → UserMmM Bool
  | [] => return true
  | changed :: rest => do
    let end_ ← okOr (checkedAdd changed.page.start pageSize) (.error (.pageTable .notMapped))
    let range ← okOr (VirtRange.new changed.page.start end_) (.error (.pageTable .notMapped))
    match ← attemptTable (applyPageProtection changed.page changed.frame
        ⟨range, changed.oldArea.flags.withAccess access, changed.oldArea.kind⟩) with
    | .ok _ => fallbackLoop access rest
    | .error _ => return false

def protectLoop : List ChangedPage → (updated : List VirtPage) → UserMmM (List VirtPage × Option RuntimePageTableError)
  | [], updated => return (updated, none)
  | changed :: rest, updated => do
    let area ← okOr ((← get).core.layout.findArea changed.page.start) (.panic .protectLostArea)
    match ← attemptTable (applyPageProtection changed.page changed.frame area) with
    | .ok _ => protectLoop rest (updated ++ [changed.page])
    | .error e => return (updated, some e)

def protectRange (range : VirtRange) (access : VmAreaFlags) : UserMmM Unit := do
  let s ← get
  let oldLayout := s.core.layout
  if alreadyProtected oldLayout range access (oldLayout.areas.areas.length + 1) range.start then return ()
  else
    let covered ← okOr (checkedAdd range.size (pageSize - 1)) (.error .addressOverflow)
    tryReserve
    let changed ← changedPages oldLayout (covered / pageSize) range.start
    given (!changed.isEmpty)
      ((fun _ => ()) <$> onCore (UserAddressSpace.planTlbRequest (.range (.addressSpace s.core.asid.id) range)))
    let reserve ← nextReserve
    match ← attempt (fun s => s.core.layout) setLayout (AddressSpace.protectRange vmaCapacity reserve range access) with
    | .error e =>
      if !access.write ∧ !changed.isEmpty then
        if ← fallbackLoop access changed then return ()
        else
          restorePages changed
          throw (.error (.core (.addressSpace (.area .capacityExceeded))))
      else
        modify (setLayout oldLayout)
        throw (.error (.core (.addressSpace e)))
    | .ok _ =>
      tryReserve
      match ← protectLoop changed [] with
      | (_, none) => return ()
      | (updated, some e) =>
        restorePages (updated.filterMap fun page => changed.find? fun changed => changed.page = page)
        modify (setLayout oldLayout)
        throw (.error (.pageTable e))

/-! ### Faults -/

def resolveLocked (address : Nat) (access : FaultAccess) (userSp : Nat) :
    UserMmM (UserFaultResolution × Option PerMmTlbRequest) := do
  let present := (← translate address).isSome
  match UserAddressSpace.planUserFault (← get).core ⟨address, access, .user, present⟩ userSp with
  | .error e => throw (coreStop e)
  | .ok (.mapAnonymous area page) =>
    let request ← onCore (UserAddressSpace.planPostInstallTlb page)
    let _ ← mapZeroPageLocked area page
    return (.recovered .anonymous, some request)
  | .ok (.growStack growth) =>
    let request ← onCore (UserAddressSpace.planPostInstallTlb growth.faultPage)
    onCore (UserAddressSpace.commitStackGrowth vmaCapacity growth)
    match ← attempt id (fun t _ => t) (mapZeroPageLocked growth.newArea growth.faultPage) with
    | .ok _ => return (.recovered .stackGrowth, some request)
    | .error e =>
      let removed ← expectLayout .growthLostArea (AddressSpace.unmapExact growth.newArea.range)
      require (removed = growth.newArea) .growthRemovedOther
      expectLayout .growthLostStack (AddressSpace.mapArea vmaCapacity true growth.oldArea)
      throw e
  | .ok (.spurious _) =>
    let request ← onCore (UserAddressSpace.planPostInstallTlb address)
    return (.recovered .spurious, some request)
  | .ok (.copyOnWriteUnsupported _) => return (.fatal .copyOnWriteUnsupported, none)
  | .ok (.protectionViolation _) => return (.fatal .protectionViolation, none)
  | .ok .segmentationViolation => return (.fatal .segmentationViolation, none)
  | .ok .kernelBug => return (.fatal .kernelBug, none)

def resolveUserFault (cpu address : Nat) (access : FaultAccess) (userSp : Nat) : UserMmM UserFaultResolution := do
  let (resolution, request) ← resolveLocked address access userSp
  match request with
  | none => return resolution
  | some request =>
    match request.localOnly cpu with
    | .ok _ => return resolution
    | .error e => throw (.error (.core (.cpuMask e)))

/-! ### Bytes -/

def accessAllowed (flags : VmAreaFlags) : FaultAccess → Bool
  | .read => flags.read
  | .write => flags.write
  | .execute => flags.execute

def nextPage (cursor : Nat) : UserMmM Nat :=
  okOr (checkedAdd (cursor - cursor % pageSize) pageSize) (.error .addressOverflow)

def validateLoop (access : FaultAccess) (end_ : Nat) : (fuel cursor : Nat) → UserMmM Unit
  | 0, _ => return ()
  | fuel + 1, cursor =>
    if cursor < end_ then do
      let area ← okOr ((← get).core.layout.findArea cursor) (.error .permissionDenied)
      if !accessAllowed area.flags access then throw (.error .permissionDenied)
      else validateLoop access end_ fuel (min (← nextPage cursor) end_)
    else return ()

/-- Each round covers at least one byte, so that the length is enough fuel, here and in the loops below. -/
def validateRange (address length : Nat) (access : FaultAccess) : UserMmM Unit := do
  let end_ ← okOr (checkedAdd address length) (.error .addressOverflow)
  if end_ ≤ address then throw (.error .invalidRange) else validateLoop access end_ length address

def mappedLoop (end_ : Nat) : (fuel cursor : Nat) → UserMmM Bool
  | 0, _ => return true
  | fuel + 1, cursor =>
    if cursor < end_ then do
      if (← translate cursor).isNone then return false else mappedLoop end_ fuel (min (← nextPage cursor) end_)
    else return true

def validateMappedRange (address length : Nat) : UserMmM Bool := do
  let end_ ← okOr (checkedAdd address length) (.error .addressOverflow)
  mappedLoop end_ length address

def storeChunk (physical : Nat) (bytes : List Nat) : UserMmM Unit := do
  let s ← get
  if s.table.ram (physical / pageSize) then set (setTable (s.table.storeBytes physical bytes) s)
  else throw (.error .notMapped)

def chunk (address : Nat) (input : List Nat) : List Nat := input.take (pageSize - address % pageSize)

def storeLoop (physical : Nat → UserMmM Nat) : (fuel address : Nat) → (input : List Nat) → UserMmM Unit
  | 0, _, _ => return ()
  | fuel + 1, address, input =>
    if input.isEmpty then return ()
    else do
      storeChunk (← physical address) (chunk address input)
      let next ← okOr (checkedAdd address (chunk address input).length) (.error .addressOverflow)
      storeLoop physical fuel next (input.drop (chunk address input).length)

def copyToMappedPages (address : Nat) (input : List Nat) : UserMmM Unit :=
  storeLoop (fun current => do okOr (← translate current) (.error .notMapped)) input.length address input

def populateLoop (end_ : Nat) : (fuel page : Nat) → UserMmM Unit
  | 0, _ => return ()
  | fuel + 1, page =>
    if page < end_ then do
      let _ ← populatePage page
      populateLoop end_ fuel (← okOr (checkedAdd page pageSize) (.error .addressOverflow))
    else return ()

def copyIfMapped (address : Nat) (input : List Nat) : UserMmM Bool := do
  validateRange address input.length .write
  if ← validateMappedRange address input.length then
    copyToMappedPages address input
    return true
  else return false

def copyResident (address : Nat) (input : List Nat) : UserMmM Unit := do
  if ← validateMappedRange address input.length then copyToMappedPages address input else throw (.error .notMapped)

def copyToUser (address : Nat) (input : List Nat) : UserMmM Unit := do
  if input.isEmpty then return ()
  else if ← copyIfMapped address input then return ()
  else
    let end_ ← okOr (checkedAdd address input.length) (.error .addressOverflow)
    populateLoop end_ input.length (address - address % pageSize)
    copyResident address input

def loadLoop : (fuel address length : Nat) → (read : List Nat) → UserMmM (List Nat)
  | 0, _, _, read => return read
  | fuel + 1, address, length, read =>
    if length = 0 then return read
    else do
      let physical ← okOr (← translate address) (.error .notMapped)
      let s ← get
      if s.table.ram (physical / pageSize) then
        let size := min (pageSize - address % pageSize) length
        let next ← okOr (checkedAdd address size) (.error .addressOverflow)
        loadLoop fuel next (length - size) (read ++ (List.range size).map fun i => s.table.loadByte (physical + i))
      else throw (.error .notMapped)

def copyFromUser (address length : Nat) : UserMmM (List Nat) := do
  if length = 0 then return []
  else
    validateRange address length .read
    if ← validateMappedRange address length then loadLoop length address length [] else throw (.error .notMapped)

def loadBytes (address : Nat) (input : List Nat) : UserMmM Unit := do
  if input.isEmpty then return ()
  else
    let _ ← okOr (checkedAdd address input.length) (.error .addressOverflow)
    let covered ← okOr (checkedAdd input.length (address % pageSize)) (.error .addressOverflow)
    let _ ← okOr (checkedAdd covered (pageSize - 1)) (.error .addressOverflow)
    tryReserve
    storeLoop (fun current => do
      let area ← okOr ((← get).core.layout.findArea current) (.error .permissionDenied)
      mapZeroPageLocked area current) input.length address input

def populateZeroedRange (address length : Nat) : UserMmM Unit := do
  if length = 0 then return ()
  else
    let end_ ← okOr (checkedAdd address length) (.error .addressOverflow)
    let covered ← okOr (checkedAdd length (address % pageSize)) (.error .addressOverflow)
    let _ ← okOr (checkedAdd covered (pageSize - 1)) (.error .addressOverflow)
    tryReserve
    populateLoop end_ length (address - address % pageSize)

/-! ### The life of an address space -/

def mapAreas : List VmArea → UserMmM Unit
  | [] => return ()
  | area :: rest => do
    let reserve ← nextReserve
    onLayout (AddressSpace.mapArea vmaCapacity reserve area)
    mapAreas rest

def new (asid : AsidToken) (areas : List VmArea) : UserMmM Unit := do
  modify fun s => { s with core := .new userRange asid, pages := [] }
  mapAreas areas
  onTable newUser

def destroyLoop : (fuel : Nat) → UserMmM Unit
  | 0 => return ()
  | fuel + 1 => do
    match (← get).pages.getLast? with
    | none => return ()
    | some mapping =>
      modify fun s => { s with pages := s.pages.dropLast }
      match ← translate mapping.page.start with
      | some physical =>
        require (physical = mapping.backing * pageSize) .destroyPhysical
        let frame ← onTable (unmapPage mapping.page)
        require (frame = mapping.backing) .destroyFrame
      | none => pure ()
      onTable (reclaimEmptyTables mapping.page)
      modify (freePage mapping.backing)
      destroyLoop fuel

def destroy : UserMmM Unit := do
  let s ← get
  if s.core.activeCpus ≠ .empty then throw (.error (.core .activeOnCpu))
  else
    tryReserve
    destroyLoop s.pages.length
    onTable retireAllPrivateTables
    onTable freeRetired
    require ((← get).table.runtimeTables = []) .destroyTables
    modify fun s => freePage s.table.root s

end UserMm

end SudoOS
