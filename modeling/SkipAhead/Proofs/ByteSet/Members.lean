import SkipAhead.ByteSet.Basic

/-!
Membership in the results of the byte-set operations, read off the bit of the byte in
its word, and extensionality: two sets with the same members are the same set, since each
bit of each word belongs to one byte. Later facts about byte sets go through these lemmas
rather than through the words.
-/

namespace SkipAhead.ByteSet

theorem toNat_ofNat_of_lt {i : Nat} (hi : i < 256) : (UInt8.ofNat i).toNat = i := by
  rw [UInt8.toNat_ofNat']
  omega

/-- A byte is fixed by its word and its place in the word. -/
theorem eq_of_bucket_eq_of_bit_eq {a b : UInt8} (hk : bucket a = bucket b) (hi : bit a = bit b) :
    a = b := by
  have hk' := congrArg Fin.val hk
  simp only [bucket, bit] at hk' hi
  apply UInt8.toNat_inj.mp
  omega

theorem exists_byte (i : Fin 2) {j : Nat} (hj : j < 128) : ∃ b, bucket b = i ∧ bit b = j := by
  have hlt : 128 * i.val + j < 256 := by omega
  refine ⟨UInt8.ofNat (128 * i.val + j), Fin.ext ?_, ?_⟩
  · simp only [bucket, toNat_ofNat_of_lt hlt]
    omega
  · simp only [bit, toNat_ofNat_of_lt hlt]
    omega

theorem ext_contains {s t : ByteSet} (h : ∀ b, s.contains b = t.contains b) : s = t := by
  obtain ⟨x⟩ := s
  obtain ⟨y⟩ := t
  have hwords : x = y := by
    apply Vector.ext
    intro i hi
    apply BitVec.eq_of_getLsbD_eq
    intro j hj
    -- the byte at place `j` of word `i` tells the two words apart
    obtain ⟨b, hbk, hbj⟩ := exists_byte ⟨i, hi⟩ hj
    have hb := h b
    simp only [contains_eq_getLsbD, hbk, hbj] at hb
    exact hb
  rw [hwords]

@[simp] theorem get_empty (i : Fin 2) : empty.bits.get i = 0 := by
  match i with
  | 0 => rfl
  | 1 => rfl

@[simp] theorem get_inter (s t : ByteSet) (i : Fin 2) :
    (s.inter t).bits.get i = s.bits.get i &&& t.bits.get i :=
  Vector.getElem_zipWith i.isLt

@[simp] theorem get_compl (s : ByteSet) (i : Fin 2) : s.compl.bits.get i = ~~~s.bits.get i :=
  Vector.getElem_map _ i.isLt

theorem get_set (v : Vector (BitVec 128) 2) (k i : Fin 2) (x : BitVec 128) :
    (v.set k x k.isLt).get i = if i = k then x else v.get i := by
  change (v.set k x k.isLt)[i.val] = if i = k then x else v[i.val]
  rw [Vector.getElem_set]
  by_cases h : i = k
  · simp [h]
  · have h' : k.val ≠ i.val := fun e => h (Fin.ext e.symm)
    simp [h, h']

@[simp] theorem contains_empty (b : UInt8) : empty.contains b = false := by
  simp [contains_eq_getLsbD]

@[simp] theorem contains_insert (s : ByteSet) (a b : UInt8) :
    (s.insert a).contains b = (decide (b = a) || s.contains b) := by
  have ha : bit a < 128 := Nat.mod_lt _ (by decide)
  simp only [contains_eq_getLsbD, insert, get_set]
  by_cases hab : b = a
  · subst hab
    simp [ha]
  · by_cases hk : bucket b = bucket a
    · -- same word, another place
      have hne : bit a ≠ bit b := fun h => hab (eq_of_bucket_eq_of_bit_eq hk h.symm)
      rw [if_pos hk, BitVec.getLsbD_or, BitVec.getLsbD_twoPow, hk]
      simp [hab, hne]
    · rw [if_neg hk]
      simp [hab]

@[simp] theorem contains_erase (s : ByteSet) (a b : UInt8) :
    (s.erase a).contains b = (!decide (b = a) && s.contains b) := by
  have ha : bit a < 128 := Nat.mod_lt _ (by decide)
  simp only [contains_eq_getLsbD, erase, get_set]
  by_cases hab : b = a
  · subst hab
    simp [ha]
  · by_cases hk : bucket b = bucket a
    · have hne : bit a ≠ bit b := fun h => hab (eq_of_bucket_eq_of_bit_eq hk h.symm)
      have hb : bit b < 128 := Nat.mod_lt _ (by decide)
      rw [if_pos hk, BitVec.getLsbD_and, BitVec.getLsbD_not, BitVec.getLsbD_twoPow, hk]
      simp [hab, hne, hb]
    · rw [if_neg hk]
      simp [hab]

@[simp] theorem contains_compl (s : ByteSet) (b : UInt8) : s.compl.contains b = !s.contains b := by
  have hb : bit b < 128 := Nat.mod_lt _ (by decide)
  simp [contains_eq_getLsbD, hb]

@[simp] theorem contains_inter (s t : ByteSet) (b : UInt8) :
    (s.inter t).contains b = (s.contains b && t.contains b) := by
  simp [contains_eq_getLsbD, BitVec.getLsbD_and]

theorem contains_foldl_insert (bs : List UInt8) (s : ByteSet) (b : UInt8) :
    (bs.foldl insert s).contains b = (decide (b ∈ bs) || s.contains b) := by
  induction bs generalizing s with
  | nil => simp
  | cons a rest ih =>
    rw [List.foldl_cons, ih, contains_insert]
    by_cases hab : b = a <;> simp [hab]

@[simp] theorem contains_ofList (bs : List UInt8) (b : UInt8) :
    (ofList bs).contains b = decide (b ∈ bs) := by
  simp [ofList, contains_foldl_insert]

@[simp] theorem contains_filter (p : UInt8 → Bool) (b : UInt8) : (filter p).contains b = p b := by
  simp [filter, mem_allBytes]

@[simp] theorem mem_toList {s : ByteSet} {b : UInt8} : b ∈ s.toList ↔ s.contains b = true := by
  simp [toList, mem_allBytes]

end SkipAhead.ByteSet
