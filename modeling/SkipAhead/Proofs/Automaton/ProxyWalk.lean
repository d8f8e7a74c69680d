import Mathlib.Data.Fintype.Card
import Mathlib.Logic.Relation
import SkipAhead.Automaton.Proxy
import SkipAhead.Proofs.Automaton.Symbols

/-!
The walk that finds a stand-in for the floating start. From a live state the walk answers
the first successor that loops on the symbol leading to it; failing that it moves on to
the first live successor it has not visited, and with none it answers the dead state.

`proxyVisits` lists the states the walk visits. Each step visits a live state outside the
visited ones (`proxyVisits_fresh`), so the visits are distinct live states, fewer than
`size`, and the fuel `size` is never used up with work left: the live states not yet
visited are fewer than the fuel at every step (`proxyWalk_add_fuel`). Whatever the walk
answers is the dead state or a looping successor of a visited state
(`proxyWalk_dead_or_loopsBack`), and every visited state is reached from the start of the
walk through live states (`liveReach_of_mem_proxyVisits`).

Main statement: `startProxy_walk_ends`.
-/

namespace SkipAhead.Automaton

variable (d : Automaton)

/-- The states the walk from `q` visits in at most `fuel` steps, in order, with the states
in `seen` visited before. -/
def proxyVisits (syms : List (Fin d.alphabetLen)) :
    Nat → List (Fin d.size) → Fin d.size → List (Fin d.size)
  | 0, _, _ => []
  | fuel + 1, seen, q =>
    if q = d.dead then []
    else
      match d.loopingSuccessor syms q with
      | some _ => [q]
      | none =>
        match d.freshSuccessor syms (q :: seen) q with
        | some t => q :: proxyVisits syms fuel (q :: seen) t
        | none => [q]

/-- `t` is a live successor of `q` on a symbol of `syms` that loops on that symbol. -/
def LoopsBack (syms : List (Fin d.alphabetLen)) (q t : Fin d.size) : Prop :=
  t ≠ d.dead ∧ ∃ a ∈ syms, d.step q a = t ∧ d.step t a = t

def LiveStep (q t : Fin d.size) : Prop := q ≠ d.dead ∧ ∃ b, d.next q b = t

def unseenLive (seen : List (Fin d.size)) : Nat :=
  (Finset.univ.erase d.dead \ seen.toFinset).card

variable {d}

/-! ### One step of the walk -/

theorem loopingSuccessor_eq_some {syms : List (Fin d.alphabetLen)} {q t : Fin d.size}
    (h : d.loopingSuccessor syms q = some t) : d.LoopsBack syms q t := by
  obtain ⟨a, ha, rfl⟩ := Option.map_eq_some_iff.mp h
  have hp := List.find?_some ha
  simp only [decide_eq_true_eq] at hp
  exact ⟨hp.1, a, List.mem_of_find?_eq_some ha, rfl, hp.2⟩

theorem freshSuccessor_eq_some {syms : List (Fin d.alphabetLen)} {seen : List (Fin d.size)}
    {q t : Fin d.size} (h : d.freshSuccessor syms seen q = some t) :
    t ≠ d.dead ∧ t ∉ seen ∧ ∃ a ∈ syms, d.step q a = t := by
  have hp := List.find?_some h
  simp only [decide_eq_true_eq] at hp
  obtain ⟨a, ha, rfl⟩ := List.mem_map.mp (List.mem_of_find?_eq_some h)
  exact ⟨hp.1, hp.2, a, ha, rfl⟩

@[simp] theorem proxyWalk_dead (syms : List (Fin d.alphabetLen)) (fuel : Nat)
    (seen : List (Fin d.size)) : d.proxyWalk syms fuel seen d.dead = d.dead := by
  cases fuel <;> simp [proxyWalk]

@[simp] theorem proxyVisits_dead (syms : List (Fin d.alphabetLen)) (fuel : Nat)
    (seen : List (Fin d.size)) : d.proxyVisits syms fuel seen d.dead = [] := by
  cases fuel <;> simp [proxyVisits]

/-- What the walk does at a live state `q`, whatever fuel it has left: it answers a looping
successor, moves on to a live successor it has not visited, or answers the dead state. -/
theorem proxyStep_cases (syms : List (Fin d.alphabetLen)) (seen : List (Fin d.size))
    {q : Fin d.size} (hq : q ≠ d.dead) :
    (∃ t, d.LoopsBack syms q t ∧
      ∀ fuel, d.proxyWalk syms (fuel + 1) seen q = t ∧
        d.proxyVisits syms (fuel + 1) seen q = [q]) ∨
    (∃ t, t ≠ d.dead ∧ t ∉ q :: seen ∧ (∃ a ∈ syms, d.step q a = t) ∧
      ∀ fuel, d.proxyWalk syms (fuel + 1) seen q = d.proxyWalk syms fuel (q :: seen) t ∧
        d.proxyVisits syms (fuel + 1) seen q = q :: d.proxyVisits syms fuel (q :: seen) t) ∨
    (∀ fuel, d.proxyWalk syms (fuel + 1) seen q = d.dead ∧
      d.proxyVisits syms (fuel + 1) seen q = [q]) := by
  cases hl : d.loopingSuccessor syms q with
  | some t =>
    exact Or.inl ⟨t, loopingSuccessor_eq_some hl,
      fun fuel => ⟨by simp [proxyWalk, hq, hl], by simp [proxyVisits, hq, hl]⟩⟩
  | none =>
    cases hf : d.freshSuccessor syms (q :: seen) q with
    | some t =>
      obtain ⟨ht, hfresh, hstep⟩ := freshSuccessor_eq_some hf
      exact Or.inr (Or.inl ⟨t, ht, hfresh, hstep,
        fun fuel => ⟨by simp [proxyWalk, hq, hl, hf], by simp [proxyVisits, hq, hl, hf]⟩⟩)
    | none =>
      exact Or.inr (Or.inr
        fun fuel => ⟨by simp [proxyWalk, hq, hl, hf], by simp [proxyVisits, hq, hl, hf]⟩)

/-! ### The visited states -/

theorem proxyVisits_fresh (syms : List (Fin d.alphabetLen)) (fuel : Nat) :
    ∀ {seen : List (Fin d.size)} {q : Fin d.size}, q ∉ seen →
      (d.proxyVisits syms fuel seen q).Nodup ∧
        ∀ v ∈ d.proxyVisits syms fuel seen q, v ≠ d.dead ∧ v ∉ seen := by
  induction fuel with
  | zero => simp [proxyVisits]
  | succ fuel ih =>
    intro seen q hq
    by_cases hd : q = d.dead
    · subst hd
      simp
    rcases proxyStep_cases syms seen hd with ⟨t, -, hstep⟩ | ⟨t, -, ht, -, hstep⟩ | hstep
    · rw [(hstep fuel).2]
      simp [hd, hq]
    · -- the next state is outside `q :: seen`, so the rest of the walk avoids `q` too
      obtain ⟨hnodup, hlive⟩ := ih ht
      rw [(hstep fuel).2]
      have hnew : q ∉ d.proxyVisits syms fuel (q :: seen) t := fun hmem =>
        (hlive q hmem).2 List.mem_cons_self
      refine ⟨List.nodup_cons.mpr ⟨hnew, hnodup⟩, ?_⟩
      intro v hv
      rcases List.mem_cons.mp hv with rfl | hv
      · exact ⟨hd, hq⟩
      · exact ⟨(hlive v hv).1, fun hs => (hlive v hv).2 (List.mem_cons_of_mem q hs)⟩
    · rw [(hstep fuel).2]
      simp [hd, hq]

theorem length_lt_size {V : List (Fin d.size)} (hnodup : V.Nodup)
    (hlive : ∀ v ∈ V, v ≠ d.dead) : V.length < d.size := by
  have hsub : V.toFinset ⊆ Finset.univ.erase d.dead := fun v hv =>
    Finset.mem_erase.mpr ⟨hlive v (List.mem_toFinset.mp hv), Finset.mem_univ v⟩
  have hcard := Finset.card_le_card hsub
  rw [List.toFinset_card_of_nodup hnodup, Finset.card_erase_of_mem (Finset.mem_univ _),
    Finset.card_univ, Fintype.card_fin] at hcard
  have := d.size_pos
  omega

/-- Every state the walk visits is reached from its start through live states. -/
theorem liveReach_of_mem_proxyVisits {syms : List (Fin d.alphabetLen)}
    (hsyms : ∀ a ∈ syms, ∃ b, d.symbol b = a) (fuel : Nat) :
    ∀ {seen : List (Fin d.size)} {q v : Fin d.size}, v ∈ d.proxyVisits syms fuel seen q →
      Relation.ReflTransGen d.LiveStep q v := by
  induction fuel with
  | zero => simp [proxyVisits]
  | succ fuel ih =>
    intro seen q v hv
    by_cases hd : q = d.dead
    · subst hd
      simp at hv
    rcases proxyStep_cases syms seen hd with
      ⟨t, -, hstep⟩ | ⟨t, -, -, ⟨a, ha, hat⟩, hstep⟩ | hstep
    · rw [(hstep fuel).2, List.mem_singleton] at hv
      exact hv ▸ Relation.ReflTransGen.refl
    · rw [(hstep fuel).2] at hv
      rcases List.mem_cons.mp hv with rfl | hv
      · exact Relation.ReflTransGen.refl
      · -- the step to `t` is taken on a byte of the symbol `a`
        obtain ⟨b, rfl⟩ := hsyms a ha
        exact Relation.ReflTransGen.head ⟨hd, b, hat⟩ (ih hv)
    · rw [(hstep fuel).2, List.mem_singleton] at hv
      exact hv ▸ Relation.ReflTransGen.refl

/-! ### Fuel and answer -/

theorem unseenLive_cons {seen : List (Fin d.size)} {q : Fin d.size} (hq : q ≠ d.dead)
    (hs : q ∉ seen) : d.unseenLive (q :: seen) + 1 = d.unseenLive seen := by
  unfold unseenLive
  rw [List.toFinset_cons, Finset.sdiff_insert, Finset.card_erase_add_one]
  simp [hq, hs]

theorem unseenLive_nil_lt : d.unseenLive [] < d.size := by
  unfold unseenLive
  rw [List.toFinset_nil, Finset.sdiff_empty, Finset.card_erase_of_mem (Finset.mem_univ _),
    Finset.card_univ, Fintype.card_fin]
  have := d.size_pos
  omega

/-- Once the fuel exceeds the live states not yet visited, more fuel changes nothing, neither
the answer nor the visited states: the walk stops before the fuel runs out. -/
theorem proxyWalk_add_fuel (syms : List (Fin d.alphabetLen)) (k fuel : Nat) :
    ∀ {seen : List (Fin d.size)} {q : Fin d.size}, q ∉ seen → d.unseenLive seen < fuel →
      d.proxyWalk syms (fuel + k) seen q = d.proxyWalk syms fuel seen q ∧
        d.proxyVisits syms (fuel + k) seen q = d.proxyVisits syms fuel seen q := by
  induction fuel with
  | zero => intro _ _ _ hfuel; omega
  | succ fuel ih =>
    intro seen q hq hfuel
    rw [Nat.add_right_comm]
    by_cases hd : q = d.dead
    · subst hd
      simp
    rcases proxyStep_cases syms seen hd with ⟨t, -, hstep⟩ | ⟨t, -, ht, -, hstep⟩ | hstep
    · rw [(hstep _).1, (hstep _).1, (hstep _).2, (hstep _).2]
      exact ⟨rfl, rfl⟩
    · -- visiting `q` leaves one live state fewer to visit
      rw [(hstep _).1, (hstep _).1, (hstep _).2, (hstep _).2]
      have := unseenLive_cons hd hq
      obtain ⟨hwalk, hvisits⟩ := ih ht (by omega)
      rw [hwalk, hvisits]
      exact ⟨rfl, rfl⟩
    · rw [(hstep _).1, (hstep _).1, (hstep _).2, (hstep _).2]
      exact ⟨rfl, rfl⟩

/-- The walk answers the dead state or a looping successor of a state it visits. -/
theorem proxyWalk_dead_or_loopsBack (syms : List (Fin d.alphabetLen)) (fuel : Nat) :
    ∀ (seen : List (Fin d.size)) (q : Fin d.size), d.proxyWalk syms fuel seen q = d.dead ∨
      ∃ s ∈ d.proxyVisits syms fuel seen q,
        d.LoopsBack syms s (d.proxyWalk syms fuel seen q) := by
  induction fuel with
  | zero => exact fun _ _ => Or.inl rfl
  | succ fuel ih =>
    intro seen q
    by_cases hd : q = d.dead
    · subst hd
      simp
    rcases proxyStep_cases syms seen hd with
      ⟨t, hloops, hstep⟩ | ⟨t, -, -, -, hstep⟩ | hstep
    · rw [(hstep fuel).1, (hstep fuel).2]
      exact Or.inr ⟨q, List.mem_singleton_self q, hloops⟩
    · rw [(hstep fuel).1, (hstep fuel).2]
      rcases ih (q :: seen) t with h | ⟨s, hs, hloops⟩
      · exact Or.inl h
      · exact Or.inr ⟨s, List.mem_cons_of_mem q hs, hloops⟩
    · exact Or.inl (hstep fuel).1

/-- The stand-in for the floating start. The walk from the anchored start ends within
`size` steps: more fuel than `size` changes neither its answer nor the states it visits, and
these are distinct live states, fewer than `size`. The stand-in is the floating start when that is live. Otherwise it is the
dead state, or a live state `t` reached from a visited state `s`, itself reached from the
anchored start through live states, on a byte whose symbol loops on `t`. -/
theorem startProxy_walk_ends :
    (∀ k, d.proxyWalk d.usedSymbols (d.size + k) [] d.startAnchored =
        d.proxyWalk d.usedSymbols d.size [] d.startAnchored ∧
      d.proxyVisits d.usedSymbols (d.size + k) [] d.startAnchored =
        d.proxyVisits d.usedSymbols d.size [] d.startAnchored) ∧
    (d.proxyVisits d.usedSymbols d.size [] d.startAnchored).Nodup ∧
    (∀ v ∈ d.proxyVisits d.usedSymbols d.size [] d.startAnchored, v ≠ d.dead) ∧
    (d.proxyVisits d.usedSymbols d.size [] d.startAnchored).length < d.size ∧
    (d.startFloating ≠ d.dead → d.startProxy = d.startFloating) ∧
    (d.startFloating = d.dead → d.startProxy = d.dead ∨
      ∃ s ∈ d.proxyVisits d.usedSymbols d.size [] d.startAnchored,
        Relation.ReflTransGen d.LiveStep d.startAnchored s ∧ d.startProxy ≠ d.dead ∧
        ∃ b, d.next s b = d.startProxy ∧ d.next d.startProxy b = d.startProxy) := by
  have hsyms : ∀ a ∈ d.usedSymbols, ∃ b, d.symbol b = a := fun a ha => mem_usedSymbols.mp ha
  obtain ⟨hnodup, hlive⟩ := proxyVisits_fresh d.usedSymbols d.size
    (List.not_mem_nil : d.startAnchored ∉ [])
  refine ⟨fun k => proxyWalk_add_fuel _ k d.size List.not_mem_nil unseenLive_nil_lt, hnodup,
    fun v hv => (hlive v hv).1, length_lt_size hnodup fun v hv => (hlive v hv).1,
    fun h => by simp [startProxy, h], fun h => ?_⟩
  have hproxy : d.startProxy = d.proxyWalk d.usedSymbols d.size [] d.startAnchored := by
    simp [startProxy, h]
  rw [hproxy]
  rcases proxyWalk_dead_or_loopsBack d.usedSymbols d.size [] d.startAnchored with
    hdead | ⟨s, hs, hlive', a, ha, hsa, hloop⟩
  · exact Or.inl hdead
  · -- the looping symbol is the symbol of some byte
    obtain ⟨b, rfl⟩ := hsyms a ha
    exact Or.inr ⟨s, hs, liveReach_of_mem_proxyVisits hsyms d.size hs, hlive', b, hsa, hloop⟩

end SkipAhead.Automaton
