import Mathlib.Data.Finset.Basic
import SkipAhead.Proofs.ByteSet.Count

/-!
Byte sets denote finite sets of bytes. The denotation of `s` is `s.members`, the bytes
whose bit is set in their word. Every operation acts on the denotation as its namesake on
`Finset UInt8`: the empty and full sets, adding and removing a byte or a range of bytes,
union, intersection and complement. The queries read the denotation: the size counts it,
emptiness and inclusion are those of the denotations, two sets are equal exactly when
they denote the same bytes, and the member list is the denotation in strictly ascending
order.

Main statement: `refines_finset`.
-/

namespace SkipAhead.ByteSet

@[simp] theorem mem_members {s : ByteSet} {b : UInt8} :
    b ∈ s.members ↔ s.contains b = true := by
  simp [members]

theorem eq_iff_members_eq {s t : ByteSet} : s = t ↔ s.members = t.members := by
  constructor
  · rintro rfl
    rfl
  · intro h
    apply ext_contains
    intro b
    have hb := congrArg (b ∈ ·) h
    simp only [mem_members, eq_iff_iff] at hb
    exact Bool.eq_iff_iff.mpr hb

@[simp] theorem members_empty : empty.members = ∅ := by
  ext b
  simp

@[simp] theorem members_full : full.members = Finset.univ := by
  ext b
  simp

@[simp] theorem members_insert (s : ByteSet) (b : UInt8) :
    (s.insert b).members = Insert.insert b s.members := by
  ext a
  simp

theorem members_singleton (b : UInt8) : (singleton b).members = {b} := by
  rw [singleton, members_insert, members_empty]
  rfl

@[simp] theorem members_erase (s : ByteSet) (b : UInt8) :
    (s.erase b).members = s.members.erase b := by
  ext a
  simp

@[simp] theorem contains_insertRange (s : ByteSet) (lo hi b : UInt8) :
    (s.insertRange lo hi).contains b = (decide (lo ≤ b ∧ b ≤ hi) || s.contains b) := by
  have hrange : ∀ a : UInt8,
      a ∈ (List.range' lo.toNat (hi.toNat + 1 - lo.toNat)).map Nat.toUInt8 ↔
        lo ≤ a ∧ a ≤ hi := by
    intro a
    have ha := a.toNat_lt
    have hhi := hi.toNat_lt
    simp only [List.mem_map, List.mem_range', UInt8.le_iff_toNat_le]
    constructor
    · rintro ⟨n, ⟨i, hi', rfl⟩, rfl⟩
      rw [Nat.toUInt8_eq, toNat_ofNat_of_lt (by omega)]
      omega
    · rintro ⟨hlo, hle⟩
      refine ⟨a.toNat, ⟨a.toNat - lo.toNat, by omega, by omega⟩, ?_⟩
      rw [Nat.toUInt8_eq, UInt8.ofNat_toNat]
  rw [insertRange, ← List.foldl_map, contains_foldl_insert]
  congr 1
  exact decide_eq_decide.mpr (hrange b)

@[simp] theorem members_insertRange (s : ByteSet) (lo hi : UInt8) :
    (s.insertRange lo hi).members =
      s.members ∪ Finset.univ.filter fun b => lo ≤ b ∧ b ≤ hi := by
  ext b
  simp [or_comm]

@[simp] theorem members_union (s t : ByteSet) : (s.union t).members = s.members ∪ t.members := by
  ext b
  simp

@[simp] theorem members_inter (s t : ByteSet) : (s.inter t).members = s.members ∩ t.members := by
  ext b
  simp

@[simp] theorem members_compl (s : ByteSet) : s.compl.members = Finset.univ \ s.members := by
  ext b
  simp

/-- The emptiness test compares both words with zero, which is the empty set. -/
theorem isEmpty_iff_eq_empty {s : ByteSet} : s.isEmpty = true ↔ s = empty := by
  obtain ⟨w⟩ := s
  simp only [isEmpty, beq_iff_eq, empty, ByteSet.mk.injEq]

theorem isEmpty_iff {s : ByteSet} : s.isEmpty = true ↔ s.members = ∅ := by
  rw [isEmpty_iff_eq_empty, eq_iff_members_eq, members_empty]

/-- The inclusion test asks that `s` and the complement of `t` have no byte in common. -/
theorem isSubset_eq_isEmpty (s t : ByteSet) : s.isSubset t = (s.inter t.compl).isEmpty := by
  have hwords : s.bits.zipWith (· &&& ~~~·) t.bits = (s.inter t.compl).bits := by
    apply Vector.ext
    intro i hi
    simp [inter, compl]
  rw [isSubset, isEmpty, hwords]

theorem isSubset_iff {s t : ByteSet} : s.isSubset t = true ↔ s.members ⊆ t.members := by
  rw [isSubset_eq_isEmpty, isEmpty_iff, Finset.eq_empty_iff_forall_notMem]
  simp only [members_inter, members_compl, Finset.mem_inter, Finset.mem_sdiff, Finset.mem_univ,
    true_and, not_and, not_not]
  rfl

theorem beq_iff {s t : ByteSet} : (s == t) = true ↔ s.members = t.members := by
  rw [beq_iff_eq, eq_iff_members_eq]

theorem allBytes_ascending : allBytes.Pairwise (· < ·) := by
  apply List.pairwise_map.mpr
  apply (List.pairwise_lt_range).imp_of_mem
  intro m n hm hn hlt
  rw [UInt8.lt_iff_toNat_lt, toNat_ofNat_of_lt (List.mem_range.mp hm),
    toNat_ofNat_of_lt (List.mem_range.mp hn)]
  exact hlt

theorem toList_ascending (s : ByteSet) : s.toList.Pairwise (· < ·) :=
  allBytes_ascending.filter _

theorem toList_toFinset (s : ByteSet) : s.toList.toFinset = s.members := by
  ext b
  simp

/-- Byte sets refine finite sets of bytes. Each operation acts on `members` as its
namesake on `Finset UInt8`, the size is the number of members, emptiness, inclusion and
equality are those of the members, and `toList` lists the members in strictly ascending
order. -/
theorem refines_finset :
    empty.members = ∅ ∧ full.members = Finset.univ ∧
    (∀ b : UInt8, (singleton b).members = {b}) ∧
    (∀ (s : ByteSet) (b : UInt8), (s.insert b).members = Insert.insert b s.members) ∧
    (∀ (s : ByteSet) (b : UInt8), (s.erase b).members = s.members.erase b) ∧
    (∀ (s : ByteSet) (lo hi : UInt8), (s.insertRange lo hi).members =
      s.members ∪ Finset.univ.filter fun b => lo ≤ b ∧ b ≤ hi) ∧
    (∀ s t : ByteSet, (s.union t).members = s.members ∪ t.members) ∧
    (∀ s t : ByteSet, (s.inter t).members = s.members ∩ t.members) ∧
    (∀ s : ByteSet, s.compl.members = Finset.univ \ s.members) ∧
    (∀ s : ByteSet, s.card = s.members.card) ∧
    (∀ s : ByteSet, s.isEmpty = true ↔ s.members = ∅) ∧
    (∀ s t : ByteSet, s.isSubset t = true ↔ s.members ⊆ t.members) ∧
    (∀ s t : ByteSet, (s == t) = true ↔ s.members = t.members) ∧
    (∀ s : ByteSet, s.toList.Pairwise (· < ·) ∧ s.toList.toFinset = s.members) :=
  ⟨members_empty, members_full, members_singleton, members_insert, members_erase,
    members_insertRange, members_union, members_inter, members_compl, card_eq_card_members,
    fun _ => isEmpty_iff, fun _ _ => isSubset_iff, fun _ _ => beq_iff,
    fun s => ⟨toList_ascending s, toList_toFinset s⟩⟩

end SkipAhead.ByteSet
