import Octets.Memory.Block
import Octets.Pool.Config

/-!
# Pools

A pool cuts small allocations out of a shared block, its slab. A claim begins at the next free
multiple of eight bytes and never goes beyond the slab; if there is not enough room left, a new
slab takes the place of the old one. Claims of half the size of a slab and more get a block of
their own, and an empty claim gets an empty block.

A claim works on the pool and on the store. The slab is taken out of the pool while it is cut, and
is put back at the end. How a slab is made is a parameter of the claim, so that it can be said when
a claim asks for one.
-/

namespace Octets

/-- The block that a pool is cutting from, and how much of it is used. -/
structure Slab where
  block : Nat
  used : Nat
deriving DecidableEq

/-- A pool: its settings, its slab, and how many slabs it has had. -/
structure Pool where
  config : PoolConfig
  slab : Option Slab
  slabCount : Nat
deriving DecidableEq

namespace Pool

/-- A pool without a slab. -/
def new (config : PoolConfig) : Pool := ⟨config, none, 0⟩

/-- The next multiple of eight. -/
def align (n : Nat) : Nat := (n + 7) / 8 * 8

/-- Where the next claim begins in the slab. -/
def offset (p : Pool) : Nat := (p.slab.map Slab.used).getD 0

/-! ## Claims -/

/-- Run an action on the store. -/
def onStore {α : Type} (p : Action Store α) : Action (Pool × Store) α :=
  p.on Prod.snd fun store state => (state.1, store)

/-- Change the pool. -/
def update (f : Pool → Pool) : Action (Pool × Store) Unit :=
  modify fun state => (f state.1, state.2)

/-- The number of bytes that are left in a slab. -/
def remaining (slab : Slab) : Action Store Nat := do
  let s ← get
  difference (s.capacity slab.block) slab.used

/-- A new slab. -/
def createSlab : Action (Pool × Store) Slab := do
  let (p, _) ← get
  let w ← onStore (Store.allocate p.config.poolSize)
  update fun p => { p with slabCount := p.slabCount + 1 }
  return ⟨w.block, 0⟩

/-- Take the slab out of the pool, or make one if there is none with enough room left. -/
def takeSlab (make : Action (Pool × Store) Slab) (size : Nat) : Action (Pool × Store) Slab := do
  let (p, _) ← get
  update fun p => { p with slab := none }
  match p.slab with
  | none => make
  | some slab => do
    let rest ← onStore (remaining slab)
    if size ≤ rest then return slab else make

/-- Cut a claim out of a slab: the place of the claim. -/
def cut (make : Action (Pool × Store) Slab) (size : Nat) : Action (Pool × Store) (Nat × Nat) := do
  let slab ← takeSlab make size
  update fun p => { p with slab := some { slab with used := align (slab.used + size) } }
  return (slab.block, slab.used)

/-- The place of a claim: a block and an offset in it. -/
def claimPlace (make : Action (Pool × Store) Slab) (size : Nat) :
    Action (Pool × Store) (Nat × Nat) :=
  if size = 0 then do
    let w ← onStore (Store.wrap [])
    return (w.block, 0)
  else do
    let (p, _) ← get
    if p.config.threshold ≤ size then do
      let w ← onStore (Store.allocate size)
      return (w.block, 0)
    else cut make size

/-- Claim a number of bytes. -/
def claim (size : Nat) : Action (Pool × Store) Window := do
  let (id, offset) ← claimPlace createSlab size
  onStore (Window.create id offset size)

/-- Claim a number of bytes that is an argument. -/
def claimSized (size : Value Window) : Action (Pool × Store) Window := do
  let n ← onStore (size.ask Argument.size)
  claim n

/-- The description of a pool. -/
def shown (p : Pool) : String :=
  "BufferPool \x7b config: PoolConfig \x7b pool_size: " ++ toString p.config.poolSize ++
    " \x7d, slabs_created: " ++ toString p.slabCount ++ ", pool_offset: " ++ toString p.offset ++
    " \x7d"

theorem align_mod (n : Nat) : align n % 8 = 0 := by unfold align; omega

theorem le_align (n : Nat) : n ≤ align n := by unfold align; omega

end Pool

end Octets
