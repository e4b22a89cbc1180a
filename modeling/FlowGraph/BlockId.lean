import Std.Data.TreeMap.Lemmas
import Std.Data.TreeSet.Lemmas
/-!
# Block identifiers

Every 32-bit word names a block, 0 included. Identifiers are ordered by their
number, so maps and sets of blocks list them sorted.

`size_map_le` and `size_set_le`: a map or set keyed by identifiers has at most
`BlockId.count` entries. This bounds every search over blocks, whatever
answers the lookup of a block gives.
-/

namespace FlowGraph

/-- The name of a block. -/
structure BlockId where
  raw : UInt32
deriving DecidableEq

namespace BlockId

/-- How many identifiers there are. -/
def count : Nat := UInt32.size

instance : Ord BlockId := ⟨fun a b => compare a.raw b.raw⟩

instance : Std.TransOrd BlockId where
  eq_swap := by
    intro a b
    exact Std.OrientedOrd.eq_swap (a := a.raw) (b := b.raw)
  isLE_trans := by
    intro a b c h h'
    exact Std.TransOrd.isLE_trans (a := a.raw) (b := b.raw) (c := c.raw) h h'

instance : Std.LawfulEqOrd BlockId where
  eq_of_compare := by
    intro a b h
    cases a; cases b
    exact congrArg BlockId.mk (Std.LawfulEqOrd.eq_of_compare h)

@[simp] theorem compare_eq_iff {a b : BlockId} : compare a b = .eq ↔ a = b :=
  Std.LawfulEqOrd.compare_eq_iff_eq

instance : ToString BlockId := ⟨fun b => "%" ++ toString b.raw.toNat⟩

/-- The identifier as a constructor applied to its number. -/
def inspect (b : BlockId) : String := "BlockId(" ++ toString b.raw.toNat ++ ")"

/-! ## There are finitely many -/

theorem toNat_raw_injective {a b : BlockId} (h : a.raw.toNat = b.raw.toNat) : a = b := by
  cases a; cases b
  exact congrArg BlockId.mk (UInt32.toNat_inj.1 h)

theorem length_le_count {l : List BlockId} (h : l.Nodup) : l.length ≤ count := by
  have hn : (l.map (·.raw.toNat)).Nodup :=
    List.pairwise_map.2 (h.imp fun hab he => hab (toNat_raw_injective he))
  have hlt : l.map (·.raw.toNat) ⊆ List.range count := by
    intro n hmem
    obtain ⟨b, -, rfl⟩ := List.mem_map.1 hmem
    exact List.mem_range.2 b.raw.toNat_lt_size
  have hle := hn.length_le_of_subset hlt
  rwa [List.length_map, List.length_range] at hle

theorem size_map_le {β : Type} (m : Std.TreeMap BlockId β) : m.size ≤ count := by
  rw [← Std.TreeMap.length_keys]
  exact length_le_count Std.TreeMap.nodup_keys

theorem size_set_le (s : Std.TreeSet BlockId) : s.size ≤ count := by
  rw [← Std.TreeSet.length_toList]
  exact length_le_count (Std.TreeSet.distinct_toList.imp fun h he => h (compare_eq_iff.2 he))

end BlockId

end FlowGraph
