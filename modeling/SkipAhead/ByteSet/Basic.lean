/-!
Sets of byte values. A set is two 128-bit words: the byte `b` is bit `b % 128` of word
`b / 128`. Union, intersection and complement work word by word, the size adds up the
set bits of both words, and `toList` lists the members in ascending order.
The view is membership: every operation is described by what it does to `b ∈ s`.
-/

namespace SkipAhead

/-- A set of byte values, one bit per byte. -/
structure ByteSet where
  bits : Vector (BitVec 128) 2
  deriving DecidableEq

namespace ByteSet

def bucket (b : UInt8) : Fin 2 := ⟨b.toNat / 128, by have := b.toNat_lt; omega⟩

def bit (b : UInt8) : Nat := b.toNat % 128

def allBytes : List UInt8 := (List.range 256).map UInt8.ofNat

def empty : ByteSet := ⟨#v[0, 0]⟩

def full : ByteSet := ⟨#v[BitVec.allOnes 128, BitVec.allOnes 128]⟩

instance : EmptyCollection ByteSet := ⟨empty⟩

/-- Whether the byte `b` belongs to `s`: its bit, masked out of its word, is not zero. -/
def contains (s : ByteSet) (b : UInt8) : Bool :=
  (s.bits.get (bucket b) &&& BitVec.twoPow 128 (bit b)) != 0

instance : Membership UInt8 ByteSet := ⟨fun s b => s.contains b = true⟩

instance (b : UInt8) (s : ByteSet) : Decidable (b ∈ s) :=
  inferInstanceAs (Decidable (s.contains b = true))

def insert (s : ByteSet) (b : UInt8) : ByteSet :=
  ⟨s.bits.set (bucket b) (s.bits.get (bucket b) ||| BitVec.twoPow 128 (bit b)) (bucket b).isLt⟩

def erase (s : ByteSet) (b : UInt8) : ByteSet :=
  ⟨s.bits.set (bucket b) (s.bits.get (bucket b) &&& ~~~BitVec.twoPow 128 (bit b)) (bucket b).isLt⟩

def singleton (b : UInt8) : ByteSet := empty.insert b

/-- Adds every byte from `lo` to `hi`, both included; nothing when `hi < lo`. -/
def insertRange (s : ByteSet) (lo hi : UInt8) : ByteSet :=
  (List.range' lo.toNat (hi.toNat + 1 - lo.toNat)).foldl (fun acc n => acc.insert n.toUInt8) s

def union (s t : ByteSet) : ByteSet := ⟨s.bits.zipWith (· ||| ·) t.bits⟩

def inter (s t : ByteSet) : ByteSet := ⟨s.bits.zipWith (· &&& ·) t.bits⟩

def compl (s : ByteSet) : ByteSet := ⟨s.bits.map (~~~·)⟩

instance : Union ByteSet := ⟨union⟩
instance : Inter ByteSet := ⟨inter⟩

def isEmpty (s : ByteSet) : Bool := s.bits == #v[0, 0]

/-- Whether every member of `s` is a member of `t`: no word of `s` has a bit outside the
same word of `t`. -/
def isSubset (s t : ByteSet) : Bool := s.bits.zipWith (· &&& ~~~·) t.bits == #v[0, 0]

def toList (s : ByteSet) : List UInt8 := allBytes.filter s.contains

def card (s : ByteSet) : Nat := s.bits.foldl (fun n w => n + w.cpop.toNat) 0

def ofList (bs : List UInt8) : ByteSet := bs.foldl insert empty

def filter (p : UInt8 → Bool) : ByteSet := ofList (allBytes.filter p)

theorem mem_iff_contains {b : UInt8} {s : ByteSet} : b ∈ s ↔ s.contains b = true := Iff.rfl

/-- Membership is the bit of the byte in its word. -/
theorem contains_eq_getLsbD (s : ByteSet) (b : UInt8) :
    s.contains b = (s.bits.get (bucket b)).getLsbD (bit b) := by
  have hbit : bit b < 128 := Nat.mod_lt _ (by decide)
  have hpow : BitVec.twoPow 128 (bit b) ≠ 0#128 := by
    intro h
    have h' := congrArg (·.getLsbD (bit b)) h
    simp [hbit] at h'
  rw [contains, BitVec.and_twoPow]
  cases (s.bits.get (bucket b)).getLsbD (bit b) <;> simp [hpow]

@[simp] theorem get_union (s t : ByteSet) (i : Fin 2) :
    (s.union t).bits.get i = s.bits.get i ||| t.bits.get i :=
  Vector.getElem_zipWith i.isLt

@[simp] theorem get_full (i : Fin 2) : full.bits.get i = BitVec.allOnes 128 := by
  match i with
  | 0 => rfl
  | 1 => rfl

@[simp] theorem contains_union (s t : ByteSet) (b : UInt8) :
    (s.union t).contains b = (s.contains b || t.contains b) := by
  simp only [contains_eq_getLsbD, get_union, BitVec.getLsbD_or]

@[simp] theorem contains_full (b : UInt8) : full.contains b = true := by
  have hbit : bit b < 128 := Nat.mod_lt _ (by decide)
  simp only [contains_eq_getLsbD, get_full, BitVec.getLsbD_allOnes]
  simp [hbit]

theorem mem_allBytes (b : UInt8) : b ∈ allBytes := by
  simp only [allBytes, List.mem_map, List.mem_range]
  exact ⟨b.toNat, b.toNat_lt, UInt8.ofNat_toNat⟩

end ByteSet

end SkipAhead
