import Mathlib.Data.List.Basic
import Mathlib.Data.List.Infix

/-! A path map sends a path, a list of components, to a value or to nothing. -/

namespace LoginomDock

abbrev PathMap (α β : Type) := List α → Option β

namespace PathMap

variable {α β γ : Type} [DecidableEq α]

section

variable (path : List α)

def delete (map : PathMap α β) : PathMap α β :=
  fun other => if path <+: other then none else map other

def clearAbove (map : PathMap α β) : PathMap α β :=
  fun other => if other <+: path then none else map other

def set (value : β) (map : PathMap α β) : PathMap α β :=
  fun other =>
    if other = path then some value
    else if other <+: path ∨ path <+: other then none
    else map other

def graft (below : PathMap α β) (map : PathMap α β) : PathMap α β :=
  fun other =>
    if path <+: other then below (other.drop path.length)
    else if other <+: path then none
    else map other

end

def mapValues (change : β → γ) (map : PathMap α β) : PathMap α γ := fun path => (map path).map change

section

variable (change : β → γ) (path : List α)

include change path

theorem mapValues_delete (map : PathMap α β) :
    mapValues change (delete path map) = delete path (mapValues change map) := by
  funext other
  simp only [mapValues, delete]
  split <;> rfl

theorem mapValues_set (value : β) (map : PathMap α β) :
    mapValues change (set path value map) = set path (change value) (mapValues change map) := by
  funext other
  simp only [mapValues, set]
  split
  · rfl
  · split <;> rfl

theorem mapValues_graft (below map : PathMap α β) :
    mapValues change (graft path below map) = graft path (mapValues change below) (mapValues change map) := by
  funext other
  simp only [mapValues, graft]
  split
  · rfl
  · split <;> rfl

end

end PathMap

end LoginomDock
