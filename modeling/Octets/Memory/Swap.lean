import Octets.Content.Swap
import Octets.Memory.Block

/-!
# Swapping bytes of windows
-/

namespace Octets.Window

/-- Reverse every group of a window; the groups must take up all bytes. -/
def swap (w : Window) (unit : SwapUnit) : Action Store Unit := do
  refuse (w.length % unit.size ≠ 0) (.misaligned unit.text)
  w.change (modify (Bytes.reverseGroups unit.size))

end Octets.Window
