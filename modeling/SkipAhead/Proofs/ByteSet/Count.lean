import Mathlib.Data.FinEnum
import Mathlib.Data.Finset.Card
import SkipAhead.Proofs.ByteSet.Members

/-!
Counting the members of a byte set. The members form a `Finset` of bytes whose size is
`card`; no set has more members than the full set, and a set with as many is full.
-/

namespace SkipAhead.ByteSet

/-- The members of `s` as a finite set of bytes. -/
def members (s : ByteSet) : Finset UInt8 := Finset.univ.filter fun b => s.contains b = true

theorem nodup_allBytes : allBytes.Nodup := by
  apply List.Nodup.map_on _ List.nodup_range
  intro x hx y hy hxy
  simp only [List.mem_range] at hx hy
  have h := congrArg UInt8.toNat hxy
  simp at h
  omega

theorem toNat_cpop_eq_countP (x : BitVec 128) :
    x.cpop.toNat = (List.range 128).countP (x.getLsbD ·) := by
  -- the count runs down from the top place, so induct on the number of places left
  have hrec : ∀ n, x.cpopNatRec n 0 = (List.range n).countP (x.getLsbD ·) := by
    intro n
    induction n with
    | zero => rfl
    | succ n ih =>
      rw [BitVec.cpopNatRec_succ, BitVec.cpopNatRec_eq, ih, List.range_succ, List.countP_append]
      cases h : x.getLsbD n <;> simp [h]
  rw [BitVec.toNat_cpop, hrec]

theorem contains_ofNat (s : ByteSet) (i : Fin 2) {j : Nat} (hj : j < 128) :
    s.contains (UInt8.ofNat (128 * i.val + j)) = (s.bits.get i).getLsbD j := by
  have hlt : 128 * i.val + j < 256 := by omega
  have hk : bucket (UInt8.ofNat (128 * i.val + j)) = i := by
    apply Fin.ext
    simp only [bucket, toNat_ofNat_of_lt hlt]
    omega
  have hb : bit (UInt8.ofNat (128 * i.val + j)) = j := by
    simp only [bit, toNat_ofNat_of_lt hlt]
    omega
  rw [contains_eq_getLsbD, hk, hb]

/-- The population counts of the two words add up to the length of the member list. -/
theorem card_eq_length_toList (s : ByteSet) : s.card = s.toList.length := by
  -- the bytes below 128 are the places of word `0`, the others those of word `1`
  have hlow : ∀ n ∈ List.range 128,
      s.contains (UInt8.ofNat n) = true ↔ (s.bits.get 0).getLsbD n = true := by
    intro n hn
    have h := contains_ofNat s 0 (List.mem_range.mp hn)
    rw [show 128 * (0 : Fin 2).val + n = n by simp] at h
    rw [h]
  have hhigh : ∀ n ∈ List.range 128,
      s.contains (UInt8.ofNat (128 + n)) = true ↔ (s.bits.get 1).getLsbD n = true := by
    intro n hn
    have h := contains_ofNat s 1 (List.mem_range.mp hn)
    rw [show 128 * (1 : Fin 2).val + n = 128 + n by simp] at h
    rw [h]
  have hsum : s.card = (s.bits.get 0).cpop.toNat + (s.bits.get 1).cpop.toNat := by
    obtain ⟨⟨ws⟩, hws⟩ := s
    match ws, hws with
    | [x, y], _ => simp [card, Vector.get]
  rw [hsum, toNat_cpop_eq_countP, toNat_cpop_eq_countP, toList, ← List.countP_eq_length_filter,
    allBytes, List.countP_map, show 256 = 128 + 128 from rfl, List.range_add, List.countP_append,
    List.countP_map]
  congr 1
  · exact (List.countP_congr hlow).symm
  · exact (List.countP_congr hhigh).symm

/-- `card` counts the members. -/
theorem card_eq_card_members (s : ByteSet) : s.card = s.members.card := by
  have hnd : (allBytes.filter s.contains).Nodup := nodup_allBytes.filter _
  rw [card_eq_length_toList, toList, ← List.toFinset_card_of_nodup hnd]
  congr 1
  ext b
  simp [members, mem_allBytes]

theorem members_subset_full (s : ByteSet) : s.members ⊆ full.members := by
  intro b _
  simp [members]

theorem card_le_card_full (s : ByteSet) : s.card ≤ full.card := by
  rw [card_eq_card_members, card_eq_card_members]
  exact Finset.card_le_card (members_subset_full s)

theorem contains_of_card_full_le {s : ByteSet} (h : full.card ≤ s.card) (b : UInt8) :
    s.contains b = true := by
  rw [card_eq_card_members, card_eq_card_members] at h
  have heq := Finset.eq_of_subset_of_card_le (members_subset_full s) h
  have hb : b ∈ full.members := by simp [members]
  rw [← heq] at hb
  simpa [members] using hb

end SkipAhead.ByteSet
