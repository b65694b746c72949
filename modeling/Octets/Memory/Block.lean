import Octets.Action
import Octets.Store

/-!
# Access to the memory

The actions on a store that all operations are made of. A window is read and changed through its
block: the range of the window in the block is computed at every access, and an access outside the
block is a trap. A change of a window runs on the bytes of that range only.

An argument that is a buffer is a window as well. It is read where an operation looks at it
(`Value.ask`), so that what it shows then is what counts.
-/

namespace Octets

variable {α : Type}

/-- Stop because there is no byte at an index among `length` bytes. The greatest index is a
difference of counts. -/
def noByte (length index : Nat) : Except Stop α :=
  if length = 0 then throw (.fault .outsideMemory)
  else do
    let last ← difference length 1
    throw (.fault (.outOfRange "index" (">= 0 and <= " ++ toString last) (.ofInt index)))

namespace Store

/-- The bytes of a block. -/
def fetch (id : Nat) : Action Store Bytes := do
  let s ← get
  return s.block id

/-- The store with other bytes in a block. -/
def setBlock (id : Nat) (new : Bytes) (s : Store) : Store := ⟨s.blocks.set id new⟩

/-- Run an action on the bytes of a block. -/
def change (id : Nat) (p : Action Bytes α) : Action Store α := p.on (·.block id) (setBlock id)

/-- Read a byte of a block. -/
def readByte (id index : Nat) : Action Store UInt8 := do
  let content ← fetch id
  match content[index]? with
  | some b => return b
  | none => noByte content.length index

/-- Write a byte of a block. -/
def writeByte (id index : Nat) (b : UInt8) : Action Store Unit :=
  change id do
    let content ← get
    if index < content.length then set (content.set index b)
    else noByte content.length index

/-- A new block with the given bytes. -/
def wrap (content : Bytes) : Action Store Window := modifyGet (·.adopt content)

/-- A new block of zeros. -/
def allocate (size : Nat) : Action Store Window := do
  Argument.blockSize size
  wrap (List.replicate size 0)

end Store

namespace Window

/-- The window at a place of a block, which must lie in the block. -/
def create (id offset length : Nat) : Action Store Window := do
  let s ← get
  refuse (s.capacity id < offset) (.outsideBounds "offset")
  let room ← difference (s.capacity id) offset
  refuse (room < length) (.outsideBounds "length")
  return ⟨id, offset, length⟩

/-- The bytes that a window shows. -/
def load (w : Window) : Action Store Bytes := do
  let content ← Store.fetch w.block
  part content w.offset (w.offset + w.length)

/-- Run an action on the bytes of a window. -/
def change (w : Window) (p : Action Bytes α) : Action Store α :=
  Store.change w.block (Action.within w.offset (w.offset + w.length) p)

/-- The bytes that two windows show. One block is looked at once; two are looked at in the order
of their numbers. -/
def loadPair (w other : Window) : Action Store (Bytes × Bytes) :=
  if w.block = other.block then do
    let content ← Store.fetch w.block
    let a ← part content w.offset (w.offset + w.length)
    let b ← part content other.offset (other.offset + other.length)
    return (a, b)
  else if w.block < other.block then do
    let a ← w.load
    let b ← other.load
    return (a, b)
  else do
    let b ← other.load
    let a ← w.load
    return (a, b)

end Window

namespace Value

/-- An argument with the bytes that its buffer shows now. -/
def observe : Value Window → Action Store Operand
  | .undefined => return .undefined
  | .null => return .null
  | .bool b => return .bool b
  | .number x => return .number x
  | .bigInteger n => return .bigInteger n
  | .text s => return .text s
  | .bytes content => return .bytes content
  | .buffer w => do
    let content ← w.load
    return .buffer content

/-- Look at an argument and check it. -/
def ask (v : Value Window) (check : Operand → Except Fault α) : Action Store α := do
  let operand ← v.observe
  check operand

end Value

end Octets
