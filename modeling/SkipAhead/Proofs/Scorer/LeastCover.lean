import Mathlib.Data.FinEnum
import Mathlib.Data.Finset.Card
import Mathlib.Tactic.Tauto
import SkipAhead.Offset.Scorer
import SkipAhead.Proofs.ByteSet.Count

/-!
The union scorer picks the narrowest position. For paths `P` and terminating bytes `T`, a
byte is *covered* at position `o` when some path has no step `o`, the byte terminates, or
it lies in some path's class at `o`; `coverAt P T o` is the set of covered bytes. The
positions looked at are those below the length of the longest path.

Main statement (`union_eq_least_cover`): with no position the answer is all bytes at
offset `0`; otherwise the offset is the least position whose covered set is smallest, and
the answer's bytes are exactly the bytes covered there. The terminating bytes are always
part of the answer.
-/

namespace SkipAhead.Scorer

/-- Byte `b` is covered at position `o` of the paths `P` with terminating bytes `T`. -/
def Covers (P : List (Path Nat)) (T : ByteSet) (o : Nat) (b : UInt8) : Prop :=
  (∃ p ∈ P, p.classes.length ≤ o) ∨ b ∈ T ∨ ∃ p ∈ P, ∃ c ∈ p.classes[o]?, b ∈ c

open Classical in
noncomputable def coverAt (P : List (Path Nat)) (T : ByteSet) (o : Nat) : Finset UInt8 :=
  Finset.univ.filter (Covers P T o)

theorem unionAt_nil (T : ByteSet) (o : Nat) : unionAt [] T o = T := rfl

/-- Peeling the first path: a path without step `o` covers everything, and otherwise its
class at `o` joins the terminating bytes. -/
theorem unionAt_cons (l : List ByteSet) (cs : List (List ByteSet)) (T : ByteSet) (o : Nat) :
    unionAt (l :: cs) T o =
      match l[o]? with
      | some c => unionAt cs (T.union c) o
      | none => ByteSet.full := by
  unfold unionAt
  cases h : l[o]? with
  | none => simp [List.mapM_cons, h]
  | some c =>
    cases hc : cs.mapM (fun cs => cs[o]?) with
    | none => simp [List.mapM_cons, h, hc]
    | some ds => simp [List.mapM_cons, h, hc]

theorem contains_unionAt (cs : List (List ByteSet)) (T : ByteSet) (o : Nat) (b : UInt8) :
    (unionAt cs T o).contains b = true ↔
      (∃ l ∈ cs, l.length ≤ o) ∨ T.contains b = true ∨
        ∃ l ∈ cs, ∃ c ∈ l[o]?, c.contains b = true := by
  induction cs generalizing T with
  | nil => simp [unionAt_nil]
  | cons l cs ih =>
    rw [unionAt_cons]
    cases h : l[o]? with
    | none =>
      have hlen : l.length ≤ o := List.getElem?_eq_none_iff.mp h
      simp only [ByteSet.contains_full, true_iff]
      exact Or.inl ⟨l, List.mem_cons_self, hlen⟩
    | some c =>
      have hlen : ¬ l.length ≤ o := by
        intro hle
        rw [List.getElem?_eq_none_iff.mpr hle] at h
        cases h
      simp only [ih, ByteSet.contains_union, Bool.or_eq_true, List.mem_cons,
        exists_eq_or_imp, Option.mem_def, h, Option.some.injEq, exists_eq_left', hlen,
        false_or, or_assoc]

theorem contains_unionAt_iff_covers (P : List (Path Nat)) (T : ByteSet) (o : Nat) (b : UInt8) :
    (unionAt (P.map Path.classes) T o).contains b = true ↔ Covers P T o b := by
  simp only [contains_unionAt, List.mem_map, Covers, ByteSet.mem_iff_contains]
  constructor
  · rintro (⟨l, ⟨p, hp, rfl⟩, hl⟩ | hT | ⟨l, ⟨p, hp, rfl⟩, hc⟩)
    · exact Or.inl ⟨p, hp, hl⟩
    · exact Or.inr (Or.inl hT)
    · exact Or.inr (Or.inr ⟨p, hp, hc⟩)
  · rintro (⟨p, hp, hl⟩ | hT | ⟨p, hp, hc⟩)
    · exact Or.inl ⟨p.classes, ⟨p, hp, rfl⟩, hl⟩
    · exact Or.inr (Or.inl hT)
    · exact Or.inr (Or.inr ⟨p.classes, ⟨p, hp, rfl⟩, hc⟩)

theorem coverAt_eq_members (P : List (Path Nat)) (T : ByteSet) (o : Nat) :
    coverAt P T o = (unionAt (P.map Path.classes) T o).members := by
  ext b
  simp only [coverAt, ByteSet.members, Finset.mem_filter, Finset.mem_univ, true_and]
  exact (contains_unionAt_iff_covers P T o b).symm

theorem lt_foldl_max (l : List Nat) (a o : Nat) : o < l.foldl max a ↔ o < a ∨ ∃ x ∈ l, o < x := by
  induction l generalizing a with
  | nil => simp
  | cons x l ih =>
    rw [List.foldl_cons, ih, lt_max_iff]
    simp only [List.mem_cons, exists_eq_or_imp]
    tauto

theorem lt_depth_iff (P : List (Path Nat)) (o : Nat) :
    o < depth (P.map Path.classes) ↔ ∃ p ∈ P, o < p.classes.length := by
  unfold depth
  rw [lt_foldl_max]
  simp

/-- The fold of the union scorer over the first `k` positions, for the sets `g o`. -/
def narrowest (g : Nat → ByteSet) (k : Nat) : AccelScheme :=
  (List.range k).foldl (fun best o => if (g o).card < best.cr.card then ⟨g o, o⟩ else best)
    ⟨ByteSet.full, 0⟩

theorem union_eq_narrowest (P : List (Path Nat)) (T : ByteSet) :
    union P T = narrowest (unionAt (P.map Path.classes) T) (depth (P.map Path.classes)) := rfl

theorem narrowest_succ (g : Nat → ByteSet) (k : Nat) :
    narrowest g (k + 1) =
      if (g k).card < (narrowest g k).cr.card then ⟨g k, k⟩ else narrowest g k := by
  unfold narrowest
  rw [List.range_succ, List.foldl_append]
  rfl

/-- After `k` positions the fold still holds all bytes at `0`, every set so far having as
many members, or it holds the first position below `k` whose set is smallest, a set with
fewer members than all bytes. -/
theorem narrowest_cases (g : Nat → ByteSet) (k : Nat) :
    (narrowest g k = ⟨ByteSet.full, 0⟩ ∧ ∀ o < k, ByteSet.full.card ≤ (g o).card) ∨
      ((narrowest g k).offset < k ∧ (narrowest g k).cr = g (narrowest g k).offset ∧
        (g (narrowest g k).offset).card < ByteSet.full.card ∧
        (∀ o < k, (g (narrowest g k).offset).card ≤ (g o).card) ∧
        (∀ o < (narrowest g k).offset, (g (narrowest g k).offset).card < (g o).card)) := by
  induction k with
  | zero => exact Or.inl ⟨rfl, fun o ho => absurd ho (Nat.not_lt_zero o)⟩
  | succ k ih =>
    rw [narrowest_succ]
    rcases ih with ⟨hfull, hall⟩ | ⟨hoff, hcr, hlt, hmin, hfirst⟩
    · rw [hfull]
      by_cases hk : (g k).card < ByteSet.full.card
      · rw [if_pos hk]
        refine Or.inr ⟨Nat.lt_succ_self k, rfl, hk, ?_, ?_⟩
        · intro o ho
          rcases Nat.lt_succ_iff_lt_or_eq.mp ho with ho | rfl
          · exact Nat.le_trans (Nat.le_of_lt hk) (hall o ho)
          · exact Nat.le_refl _
        · intro o ho
          exact Nat.lt_of_lt_of_le hk (hall o ho)
      · rw [if_neg hk]
        refine Or.inl ⟨rfl, ?_⟩
        intro o ho
        rcases Nat.lt_succ_iff_lt_or_eq.mp ho with ho | rfl
        · exact hall o ho
        · exact Nat.le_of_not_lt hk
    · by_cases hk : (g k).card < (narrowest g k).cr.card
      · rw [if_pos hk]
        rw [hcr] at hk
        refine Or.inr ⟨Nat.lt_succ_self k, rfl, Nat.lt_trans hk hlt, ?_, ?_⟩
        · intro o ho
          rcases Nat.lt_succ_iff_lt_or_eq.mp ho with ho | rfl
          · exact Nat.le_trans (Nat.le_of_lt hk) (hmin o ho)
          · exact Nat.le_refl _
        · intro o ho
          exact Nat.lt_of_lt_of_le hk (hmin o ho)
      · rw [if_neg hk]
        rw [hcr] at hk
        refine Or.inr ⟨Nat.lt_succ_of_lt hoff, hcr, hlt, ?_, hfirst⟩
        intro o ho
        rcases Nat.lt_succ_iff_lt_or_eq.mp ho with ho | rfl
        · exact hmin o ho
        · exact Nat.le_of_not_lt hk

/-- The union scorer's choice. The depth is the length of the longest path; the
terminating bytes are in the answer; with depth `0` the answer is all bytes at `0`; and
otherwise the offset is a position below the depth whose covered set is as small as any
and strictly smaller than at every earlier position, the answer's bytes being exactly
those covered there. -/
theorem union_eq_least_cover (P : List (Path Nat)) (T : ByteSet) :
    (∀ o, o < depth (P.map Path.classes) ↔ ∃ p ∈ P, o < p.classes.length) ∧
    (∀ b ∈ T, b ∈ (union P T).cr) ∧
    (depth (P.map Path.classes) = 0 → union P T = ⟨ByteSet.full, 0⟩) ∧
    (0 < depth (P.map Path.classes) →
      (union P T).offset < depth (P.map Path.classes) ∧
      (∀ b, b ∈ (union P T).cr ↔ Covers P T (union P T).offset b) ∧
      (∀ o < depth (P.map Path.classes),
        (coverAt P T (union P T).offset).card ≤ (coverAt P T o).card) ∧
      (∀ o < (union P T).offset,
        (coverAt P T (union P T).offset).card < (coverAt P T o).card)) := by
  have hcard : ∀ o, (coverAt P T o).card = (unionAt (P.map Path.classes) T o).card := by
    intro o
    rw [coverAt_eq_members, ByteSet.card_eq_card_members]
  have hcov : ∀ o b, (unionAt (P.map Path.classes) T o).contains b = true ↔ Covers P T o b :=
    contains_unionAt_iff_covers P T
  rw [union_eq_narrowest]
  refine ⟨lt_depth_iff P, ?_, ?_, ?_⟩
  · intro b hb
    rcases narrowest_cases (unionAt (P.map Path.classes) T) (depth (P.map Path.classes)) with
      ⟨hfull, -⟩ | ⟨-, hcr, -⟩
    · rw [hfull]
      exact ByteSet.contains_full b
    · rw [hcr, ByteSet.mem_iff_contains, hcov]
      exact Or.inr (Or.inl hb)
  · intro h0
    rw [h0]
    rfl
  · intro hpos
    simp only [hcard]
    rcases narrowest_cases (unionAt (P.map Path.classes) T) (depth (P.map Path.classes)) with
      ⟨hfull, hall⟩ | ⟨hoff, hcr, -, hmin, hfirst⟩
    · rw [hfull]
      have h0 : ByteSet.full.card ≤ (unionAt (P.map Path.classes) T 0).card := hall 0 hpos
      refine ⟨hpos, ?_, ?_, ?_⟩
      · intro b
        rw [ByteSet.mem_iff_contains, ByteSet.contains_full]
        exact ⟨fun _ => (hcov 0 b).mp (ByteSet.contains_of_card_full_le h0 b), fun _ => rfl⟩
      · intro o ho
        exact Nat.le_trans (ByteSet.card_le_card_full _) (hall o ho)
      · intro o ho
        exact absurd ho (Nat.not_lt_zero o)
    · refine ⟨hoff, ?_, hmin, hfirst⟩
      intro b
      rw [hcr, ByteSet.mem_iff_contains, hcov]

end SkipAhead.Scorer
