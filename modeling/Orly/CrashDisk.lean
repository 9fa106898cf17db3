import Mathlib

/-!
# Disks that crash

A disk holds a block at each address.  A crash keeps the writes that a completed
sync covered and any of the blocks written after them.
-/

namespace CrashDisk

open List

variable {Address Block : Type*} [DecidableEq Address]

/-- The disk after some blocks have been written, in this order. -/
def writeAll (disk : Address → Block) (writes : List (Address × Block)) : Address → Block :=
  writes.foldl (fun disk write => Function.update disk write.1 write.2) disk

/--
What a crash may leave of a disk: every synced write and some of the later ones.
Only whole blocks are lost, and any block may be.
-/
def CrashImage (disk : Address → Block) (synced later : List (Address × Block))
    (image : Address → Block) : Prop :=
  ∃ kept, kept.Sublist later ∧ image = writeAll disk (synced ++ kept)

variable {disk image : Address → Block} {writes synced earlier later : List (Address × Block)}
  {address : Address} {block : Block}

theorem writeAll_append (disk : Address → Block) (first second : List (Address × Block)) :
    writeAll disk (first ++ second) = writeAll (writeAll disk first) second :=
  foldl_append

/-- A block is as it was if nothing was written there; else it is one that was written. -/
theorem writeAll_cases (disk : Address → Block) (writes : List (Address × Block))
    (address : Address) :
    ((∀ write ∈ writes, write.1 ≠ address) ∧ writeAll disk writes address = disk address) ∨
      (address, writeAll disk writes address) ∈ writes := by
  induction writes generalizing disk with
  | nil => exact Or.inl ⟨by simp, rfl⟩
  | cons write writes ih =>
    rcases ih (Function.update disk write.1 write.2) with
      ⟨untouched, eq⟩ | mem
    · have first : writeAll disk (write :: writes) address =
          Function.update disk write.1 write.2 address := eq
      by_cases here : write.1 = address
      · right
        subst here
        rw [first, Function.update_self]
        exact mem_cons_self
      · left
        refine ⟨forall_mem_cons.mpr ⟨here, untouched⟩, ?_⟩
        rw [first, Function.update_of_ne (Ne.symm here)]
    · exact Or.inr (mem_cons_of_mem _ mem)

/-- If every write to an address wrote the same block, that block is there. -/
theorem writeAll_eq (written : ∃ write ∈ writes, write.1 = address)
    (same : ∀ write ∈ writes, write.1 = address → write.2 = block) :
    writeAll disk writes address = block := by
  rcases writeAll_cases disk writes address with ⟨untouched, -⟩ | mem
  · obtain ⟨write, mem, here⟩ := written
    exact absurd here (untouched write mem)
  · exact same _ mem rfl

namespace CrashImage

/-- The disk with every write is one that a crash may leave. -/
theorem all (disk : Address → Block) (synced later : List (Address × Block)) :
    CrashImage disk synced later (writeAll disk (synced ++ later)) :=
  ⟨later, List.Sublist.refl later, rfl⟩

/-- A block of the image was there from the start, or was written. -/
theorem cases (crash : CrashImage disk synced later image) (address : Address) :
    image address = disk address ∨ (address, image address) ∈ synced ++ later := by
  obtain ⟨kept, sublist, rfl⟩ := crash
  rcases writeAll_cases disk (synced ++ kept) address with ⟨-, eq⟩ | mem
  · exact Or.inl eq
  · exact Or.inr ((List.Sublist.append_left sublist synced).mem mem)

/-- A synced block that nothing else was written over survives. -/
theorem survives (crash : CrashImage disk (earlier ++ synced) later image)
    (written : ∃ write ∈ synced, write.1 = address)
    (same : ∀ write ∈ synced ++ later, write.1 = address → write.2 = block) :
    image address = block := by
  obtain ⟨kept, sublist, rfl⟩ := crash
  rw [append_assoc, writeAll_append]
  refine writeAll_eq ?_ ?_
  · obtain ⟨write, mem, here⟩ := written
    exact ⟨write, mem_append_left _ mem, here⟩
  · intro write mem
    exact same write ((List.Sublist.append_left sublist synced).mem mem)

end CrashImage

end CrashDisk
