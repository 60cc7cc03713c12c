import DShowServer.Framework.Chain
import DShowServer.Registry.Model

/-!
# The list of handles in memory

`head` is a list of nodes linked both ways: `prev` leads from the newest handle
to the oldest, `next` back. The model of the registry keeps it as a list, and
here the functions that follow the pointers are shown to do to the nodes what
the model does to the list (`Represents`): a handle goes in front
(`Represents.insertHandle`), the search meets the same handles in the same order
(`Represents.findHandle`), and a node taken out, wherever it is, leaves the
others linked (`Represents.closeKey`).
-/

namespace DShow.Registry

/-- The nodes of `reg_handle_t`, of which `head` is the newest. -/
abbrev Handles := Chain RegHandle

namespace Handles

/-- `insert_handle`. -/
def insertHandle (s : Handles) (handle : BitVec 32) (name : CString) : Option Handles :=
  (s.push ⟨handle, name⟩).map Prod.snd

/-- `find_handle`. -/
def findHandle (s : Handles) (handle : BitVec 32) : Option Nat := s.find fun t => t.handle = handle

/-- `RegCloseKey`. -/
def closeKey (s : Handles) (key : BitVec 32) : Option (Nat × Handles) :=
  if key = hkeyLocalMachine then some (0, s)
  else if key = hkeyCurrentUser then some (0, s)
  else do
    let handle ← s.findHandle key
    if handle = 0 then pure (0, s)
    else
      let s ← s.unlinkPrev handle
      pure (1, s)

/-- The nodes are the handles of a process. -/
def Represents (s : Handles) (p : Process) : Prop := Chain.Represents s p.head

namespace Represents

variable {s : Handles} {p : Process}

theorem nil : Represents .empty (Process.new none) := Chain.Represents.nil

theorem insertHandle (hs : s.Represents p) (handle : BitVec 32) (name : CString) :
    ∃ s', s.insertHandle handle name = some s' ∧ s'.Represents (p.insertHandle handle name) := by
  obtain ⟨t, s', hpush, hs'⟩ := Chain.Represents.push hs ⟨handle, name⟩
  exact ⟨s', by rw [Handles.insertHandle, hpush]; rfl, hs'⟩

/-- The search along `prev` finds the node of the handle that the model finds. -/
theorem findHandle (hs : s.Represents p) (key : BitVec 32) : ∃ a, s.findHandle key = some a ∧
    s.value a = p.findHandle key ∧ (a = 0 ↔ p.findHandle key = none) :=
  Chain.Represents.find hs _

/-- Closing a key takes the node out that the model takes out of its list. -/
theorem closeKey (hs : s.Represents p) (key : BitVec 32) :
    ∃ s', s.closeKey key = some ((p.regCloseKey key).1, s') ∧
      s'.Represents (p.regCloseKey key).2 := by
  unfold Handles.closeKey Process.regCloseKey
  split
  · exact ⟨s, rfl, hs⟩
  split
  · exact ⟨s, rfl, hs⟩
  obtain ⟨a, ha, -, hnone⟩ := hs.findHandle key
  rw [ha, Option.bind_eq_bind, Option.bind_some]
  cases hf : p.findHandle key with
  | none => exact ⟨s, if_pos (hnone.mpr hf), hs⟩
  | some t =>
    have hne : a ≠ 0 := fun h0 => by rw [hnone.mp h0] at hf; cases hf
    obtain ⟨s', hun, hs'⟩ := Chain.Represents.unlinkPrev hs ha hne
    exact ⟨s', by rw [if_neg hne, hun]; rfl, hs'⟩

end Represents

end Handles

end DShow.Registry
