import Mathlib.Logic.Function.Basic

/-! # What a disk holds

A disk gives what lies at each place. A write, a removal and a rename are single changes of it, and each says which
places it leaves alone.
-/

namespace Teleno.Library

open Function

/-- What lies at each place, if anything does. -/
abbrev Disk (κ ι : Type) := κ → Option ι

namespace Disk

variable {κ ι : Type} [DecidableEq κ] {disk : Disk κ ι} {place source destination : κ} {item : ι}

def put (place : κ) (item : ι) (disk : Disk κ ι) : Disk κ ι := Function.update disk place (some item)

def remove (place : κ) (disk : Disk κ ι) : Disk κ ι := Function.update disk place none

/-- What was at the source is at the destination, and no longer at the source. -/
def rename (source destination : κ) (disk : Disk κ ι) : Disk κ ι :=
  Function.update (Function.update disk destination (disk source)) source none

/-- Change what lies at a place. -/
def change (place : κ) (f : ι → ι) (disk : Disk κ ι) : Disk κ ι := Function.update disk place ((disk place).map f)

@[simp] theorem put_self : disk.put place item place = some item := update_self ..

theorem put_other (other : source ≠ place) : disk.put place item source = disk source :=
  update_of_ne other ..

theorem remove_other (other : source ≠ place) : disk.remove place source = disk source :=
  update_of_ne other ..

@[simp] theorem rename_source : disk.rename source destination source = none := update_self ..

theorem rename_destination (differ : destination ≠ source) :
    disk.rename source destination destination = disk source := by
  rw [rename, update_of_ne differ, update_self]

theorem rename_other (notSource : place ≠ source) (notDestination : place ≠ destination) :
    disk.rename source destination place = disk place := by
  rw [rename, update_of_ne notSource, update_of_ne notDestination]

@[simp] theorem change_self {f : ι → ι} : disk.change place f place = (disk place).map f := update_self ..

theorem change_other {f : ι → ι} (other : source ≠ place) : disk.change place f source = disk source :=
  update_of_ne other ..

end Disk

end Teleno.Library
