import Caret.Types.Id
/-!
# Listing a set of types

A set of types has no order of its own. Where one is written out, each type is given a slot in a
table that is a little larger than the set, and the types are listed slot by slot. The listing has
each type of the set once.
-/

namespace Caret.TypeId

/-- The number of slots for a set of the given size: a power of two that keeps a slot in eight, but
at least one, free. -/
def slotCount (size : Nat) : Nat :=
  if size < 4 then 4 else if size < 8 then 8 else (size * 8 / 7).nextPowerOfTwo

/-- The slot that a type should have: the number is spread over 64 bits by an odd factor, and the
slot is read off the 26 highest bits. -/
def homeSlot (slots : Nat) (id : TypeId) : Nat :=
  id.number * 0xf1357aea2e62a9c5 % 0x10000000000000000 / 0x4000000000 % slots

/-- The first slot that is not taken, from the type's own slot on and around. -/
def freeSlot (slots : Nat) (taken : List Nat) (id : TypeId) : Nat :=
  (((List.range slots).map fun i => (id.homeSlot slots + i) % slots).find?
    (!taken.contains ·)).getD 0

/-- Types with their slots; one that stands further left has its slot before the others. -/
def withSlots (slots : Nat) (ids : List TypeId) : List (Nat × TypeId) :=
  ids.foldl (fun placed id => placed ++ [(id.freeSlot slots (placed.map (·.1)), id)]) []

/-- The types of a set in the order in which they are written out. -/
def listing (ids : List TypeId) : List TypeId :=
  ((withSlots (slotCount ids.length) ids).mergeSort fun a b => a.1 ≤ b.1).map (·.2)

theorem map_snd_withSlots (slots : Nat) (ids : List TypeId) :
    (withSlots slots ids).map (·.2) = ids := by
  suffices h : ∀ placed : List (Nat × TypeId), (ids.foldl (fun placed id =>
      placed ++ [(id.freeSlot slots (placed.map (·.1)), id)]) placed).map (·.2) =
      placed.map (·.2) ++ ids from h []
  induction ids with
  | nil => simp
  | cons id ids ih => intro placed; simp [ih]

theorem listing_perm (ids : List TypeId) : (listing ids).Perm ids := by
  have h := (List.mergeSort_perm (withSlots (slotCount ids.length) ids)
    fun a b => decide (a.1 ≤ b.1)).map (·.2)
  rwa [map_snd_withSlots] at h

end Caret.TypeId
