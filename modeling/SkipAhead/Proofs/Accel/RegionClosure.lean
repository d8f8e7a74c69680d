import SkipAhead.Proofs.Offset.Walks

/-!
The region as a closure. For a description other than double-byte, the region of a state is
the least set of states that holds it and is closed under steps on bytes outside the
escape set: the states some word of such bytes leads to. The dead state is no exception.

The walk that computes the region is bounded by `size` visits. The bound is never reached
with work left: each visit pops a state and pushes only states it marks, so the stack and
the unmarked states together shrink with every visit (`regionWalk_add_fuel`).

Main statement: `region_eq_reachAvoiding`.
-/

namespace SkipAhead.Automaton

variable {d : Automaton}

theorem regionWalk_nil (syms : List (Fin d.alphabetLen)) (fuel : Nat) (marks : Vector Bool d.size) :
    d.regionWalk syms fuel [] marks = marks := by
  cases fuel <;> rfl

/-- Once the fuel covers the stack and the unmarked states, more fuel changes nothing. -/
theorem regionWalk_add_fuel (syms : List (Fin d.alphabetLen)) (fuel k : Nat) :
    ∀ {pending marks}, pending.length + unmarked marks ≤ fuel →
      d.regionWalk syms (fuel + k) pending marks = d.regionWalk syms fuel pending marks := by
  induction fuel with
  | zero =>
    intro pending marks hle
    have hnil : pending = [] := List.eq_nil_of_length_eq_zero (by omega)
    subst hnil
    rw [regionWalk_nil, regionWalk_nil]
  | succ fuel ih =>
    intro pending marks hle
    cases pending with
    | nil => rw [regionWalk_nil, regionWalk_nil]
    | cons q rest =>
      rw [Nat.add_right_comm, regionWalk_cons, regionWalk_cons]
      apply ih
      have hvisit := length_add_unmarked_visit syms q marks rest
      omega

theorem regionWalk_start_add_fuel (syms : List (Fin d.alphabetLen)) (base : Fin d.size) (k : Nat) :
    d.regionWalk syms (d.size + k) [base]
        ((Vector.replicate d.size false).setIfInBounds base.val true) =
      d.regionWalk syms d.size [base]
        ((Vector.replicate d.size false).setIfInBounds base.val true) :=
  regionWalk_add_fuel syms d.size k (by rw [List.length_singleton, Nat.add_comm, unmarked_start])

/-- Steps on bytes outside `X` reach exactly the states some word of such bytes leads to. -/
theorem reflTransGen_leadsAvoiding_iff (X : ByteSet) (base t : Fin d.size) :
    Relation.ReflTransGen (d.LeadsAvoiding X) base t ↔
      ∃ w : List UInt8, (∀ b ∈ w, X.contains b = false) ∧ d.run base w = t := by
  constructor
  · intro h
    induction h with
    | refl => exact ⟨[], by simp, rfl⟩
    | tail _ hstep ih =>
      obtain ⟨w, hw, rfl⟩ := ih
      obtain ⟨b, hb, rfl⟩ := hstep
      refine ⟨w ++ [b], ?_, by simp [run]⟩
      intro c hc
      rcases List.mem_append.mp hc with hc | hc
      · exact hw c hc
      · rw [List.mem_singleton.mp hc]
        exact hb
  · rintro ⟨w, hw, rfl⟩
    -- read the word from the front, from any state already reached
    suffices ∀ q, Relation.ReflTransGen (d.LeadsAvoiding X) base q →
        Relation.ReflTransGen (d.LeadsAvoiding X) base (w.foldl d.next q) from
      this base Relation.ReflTransGen.refl
    induction w with
    | nil => exact fun _ h => h
    | cons b w ih =>
      intro q hq
      exact ih (fun c hc => hw c (List.mem_cons_of_mem b hc)) (d.next q b)
        (hq.tail ⟨b, hw b List.mem_cons_self, rfl⟩)

/-- The region of `base` under `info`. A double-byte description keeps `base` alone. Any other
description gives, in ascending order, exactly the states that some word of bytes outside
`info.outs` leads to from `base`, the dead state included when a word leads there: the least
set of states that holds `base` and is closed under steps on such bytes. The walk computing it
ends within `size` visits, so more fuel changes nothing. -/
theorem region_eq_reachAvoiding (base : Fin d.size) (info : EscapeInfo) :
    (info.isBroken = false → d.region base info = [base]) ∧
    (info.isBroken = true →
      (∀ t, t ∈ d.region base info ↔
        ∃ w : List UInt8, (∀ b ∈ w, info.outs.contains b = false) ∧ d.run base w = t) ∧
      (∀ q ∈ d.region base info, ∀ b, info.outs.contains b = false →
        d.next q b ∈ d.region base info) ∧
      (∀ S : Set (Fin d.size), base ∈ S →
        (∀ q ∈ S, ∀ b, info.outs.contains b = false → d.next q b ∈ S) →
        ∀ t ∈ d.region base info, t ∈ S)) ∧
    (d.region base info).Pairwise (· < ·) ∧
    ∀ k, d.regionWalk (d.symbolsOf info.outs.compl) (d.size + k) [base]
        ((Vector.replicate d.size false).setIfInBounds base.val true) =
      d.regionWalk (d.symbolsOf info.outs.compl) d.size [base]
        ((Vector.replicate d.size false).setIfInBounds base.val true) := by
  refine ⟨fun h => by simp [region, h], fun h => ?_, region_pairwise base info,
    regionWalk_start_add_fuel _ base⟩
  have hmem : ∀ t, t ∈ d.region base info ↔
      Relation.ReflTransGen (d.LeadsAvoiding info.outs) base t := by
    intro t
    rw [mem_region, if_pos h]
  refine ⟨fun t => (hmem t).trans (reflTransGen_leadsAvoiding_iff _ base t), ?_, ?_⟩
  · intro q hq b hb
    exact (hmem _).mpr (((hmem q).mp hq).tail ⟨b, hb, rfl⟩)
  · intro S hbase hclosed t ht
    have hreach := (hmem t).mp ht
    clear ht
    -- induction on the steps from `base` to `t`, each staying in `S`
    induction hreach with
    | refl => exact hbase
    | tail _ hstep ih =>
      obtain ⟨b, hb, rfl⟩ := hstep
      exact hclosed _ ih b hb

end SkipAhead.Automaton
