import SudoOS.Mm.Address

/-! Architecture-independent mapping options and the policy every mapping has to meet. -/

namespace SudoOS

structure PagePermissions where
  readable : Bool
  writable : Bool
  executable : Bool
deriving DecidableEq

namespace PagePermissions

def empty : PagePermissions := ⟨false, false, false⟩

def readOnly : PagePermissions := ⟨true, false, false⟩

def readWrite : PagePermissions := ⟨true, true, false⟩

def readExecute : PagePermissions := ⟨true, false, true⟩

def readWriteExecute : PagePermissions := ⟨true, true, true⟩

def isEmpty (p : PagePermissions) : Bool := p == empty

end PagePermissions

inductive MemoryType
  | normal
  | device
  | uncached
deriving DecidableEq

inductive MappingOptionsError
  | noPermissions
  | writableWithoutRead
  | userGlobalMapping
  | writableExecutableMapping
  | executableDeviceMapping
deriving DecidableEq

structure MappingOptions where
  permissions : PagePermissions
  memoryType : MemoryType := .normal
  user : Bool := false
  global : Bool := false
deriving DecidableEq

def MappingOptions.validate (o : MappingOptions) : Except MappingOptionsError Unit :=
  if o.permissions.isEmpty then .error .noPermissions
  else if o.permissions.writable && !o.permissions.readable then .error .writableWithoutRead
  else if o.user && o.global then .error .userGlobalMapping
  else if !o.user && o.permissions.writable && o.permissions.executable then .error .writableExecutableMapping
  else if o.memoryType = .device ∧ o.permissions.executable then .error .executableDeviceMapping
  else .ok ()

end SudoOS
