import SudoOS.Lib.Program

/-!
Path strings of the VFS and their components. Strings are the bytes of their UTF-8 form. Every fallible reservation takes
the next answer of the allocator; where the answers run out, memory is granted.
-/

namespace SudoOS

namespace Vfs

inductive Errno
  | eperm
  | enoent
  | eio
  | enomem
  | ebusy
  | eexist
  | enodev
  | enotdir
  | eisdir
  | einval
  | erofs
  | enametoolong
  | enosys
  | enotempty
  | eloop
  | eoverflow
deriving DecidableEq

abbrev Name := List UInt8

abbrev Path := List UInt8

/-- The answers of the allocator to the reservations to come. -/
abbrev Memory := List Bool

abbrev MemoryM := EStateM Errno Memory

def reserve : MemoryM Unit := do
  match ← get with
  | [] => pure ()
  | granted :: rest =>
    set rest
    if granted then pure () else throw .enomem

def slash : UInt8 := 47

def dot : UInt8 := 46

def rootPath : Path := [slash]

def maxComponentLen : Nat := 255

def validateComponent (component : Name) : Except Errno Unit :=
  if component = [] then .error .enoent
  else if maxComponentLen < component.length then .error .enametoolong
  else if 0 ∈ component ∨ slash ∈ component then .error .einval
  else .ok ()

def cloneComponent (name : Name) : MemoryM Name := do
  ofExcept (validateComponent name)
  reserve
  pure name

def appendComponent (output : List Name) (component : Name) : MemoryM (List Name) :=
  if component = [] ∨ component = [dot] then pure output
  else if component = [dot, dot] then pure output.dropLast
  else do
    ofExcept (validateComponent component)
    reserve
    pure (output ++ [component])

def appendComponents (path : Path) (output : List Name) : MemoryM (List Name) :=
  if 0 ∈ path then throw .einval else (path.splitOn slash).foldlM appendComponent output

def components (path : Path) : MemoryM (List Name) :=
  if path.head? = some slash then appendComponents path [] else throw .enoent

def buildAbsolutePath (components : List Name) : MemoryM Path :=
  if components = [] then pure rootPath
  else do
    Program.ensure ((components.map (·.length + 1)).sum < 2 ^ 64) .eoverflow
    reserve
    pure (components.flatMap (slash :: ·))

def resolvePath (cwd path : Path) : MemoryM Path := do
  Program.ensure (path ≠ [] ∧ 0 ∉ path) .enoent
  let output ← if path.head? = some slash then pure [] else appendComponents cwd []
  let output ← appendComponents path output
  buildAbsolutePath output

def appendComponentToPath (path : Path) (component : Name) : MemoryM Path := do
  ofExcept (validateComponent component)
  let path ← if path = rootPath then pure path else do
    reserve
    pure (path ++ [slash])
  reserve
  pure (path ++ component)

def appendRemainingComponents (path : Path) (components : List Name) : MemoryM Path :=
  components.foldlM appendComponentToPath path

def trimEnd (path : Path) : Path := path.rdropWhile (· = slash)

def isPathDescendant (path parent : Path) : Bool :=
  (trimEnd parent).isPrefixOf path && path[(trimEnd parent).length]? = some slash

def splitParent (path : Path) : Except Errno (Path × Name) :=
  if path.head? ≠ some slash then .error .enoent
  else
    let name := (trimEnd path).rtakeWhile (· ≠ slash)
    -- up to and with the last slash
    let before := (trimEnd path).rdropWhile (· ≠ slash)
    if before = [] then .error .enoent
    else do
      validateComponent name
      pure (if before.length = 1 then rootPath else before.dropLast, name)

end Vfs

end SudoOS
