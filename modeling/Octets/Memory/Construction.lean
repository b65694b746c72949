import Octets.Content.Construction
import Octets.Memory.Fill

/-!
# New windows

Windows onto new blocks that hold what their arguments give.
-/

namespace Octets.Window

/-- A new block with the bytes of a text. -/
def ofText (s : String) (encoding : Value Window) : Action Store Window := do
  let content ← encoding.ask (Content.ofText s)
  Store.wrap content

/-- A new block with one byte for each argument. -/
def ofValues (values : List (Value Window)) : Action Store Window := do
  let content ← values.mapM (·.ask Value.toByte)
  Store.wrap content

/-- A new block with the bytes that a window shows. -/
def copyOf (w : Window) : Action Store Window := do
  let content ← w.load
  Store.wrap content

/-- A new block of a checked size. -/
def sized (size : Value Window) : Action Store Window := do
  let n ← size.ask Argument.size
  Store.allocate n

/-- A new block of a checked size that is filled with a value. -/
def filled (size value encoding : Value Window) : Action Store Window := do
  let n ← size.ask Argument.size
  let w ← Store.allocate n
  if Content.isNoFill value || n == 0 then return w
  else do
    w.fill value (.ofInt 0) (.ofInt n) encoding
    return w

end Octets.Window
