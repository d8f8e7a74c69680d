import Mathlib.Data.List.Forall2
import Mathlib.Data.List.Nodup
import SkipAhead.Proofs.Offset.Round

/-!
The paths of the search are walks of the automaton. A path's classes, first step first,
are the byte sets of the steps of a walk from the base: each class holds exactly the bytes
that take one state of the walk to the next, so each is non-empty and every word drawn
from the classes in turn leads from the base to the destination. The walk never comes back
to the base, since the empty path recorded there dominates every step, and it leaves no
state that calls back, since such a path is carried over and never extended. A dead path
ends where the input may stop.

The search keeps this of every path of its frontier (`SearchInv`), together with what
keeps the frontier free of repeats: after `r` rounds a dead path has fewer than `r` steps,
and a live path that may still grow has exactly `r`. One round adds only offspring of the
frontier, and distinct paths have disjoint offspring, so the next frontier has no repeats
either.

Main statement: `generatePaths_walks`.
-/

namespace SkipAhead.Automaton

variable (d : Automaton)

def run (q : Fin d.size) (w : List UInt8) : Fin d.size := w.foldl d.next q

/-- `d.Walk base cs t`: read last step first, `cs` are the classes of a walk of `d` from
`base` to `t` that never comes back to `base` and never leaves a state that calls back. Each
class is non-empty and holds exactly the bytes of its step. -/
inductive Walk (base : Fin d.size) : List ByteSet → Fin d.size → Prop
  | nil : Walk base [] base
  | step {cs : List ByteSet} {q t : Fin d.size} {c : ByteSet} :
      Walk base cs q → (∀ b, c.contains b = true ↔ d.next q b = t) →
      (∃ b, d.next q b = t) →
      t ≠ base → d.callsBack q = false → Walk base (c :: cs) t

/-- Where a dead path may end: a state that reports, at once or at the end of the input,
and does not call back. -/
def EndsDead (q : Fin d.size) : Prop :=
  (d.hasReports q || d.hasEodReports q) = true ∧ d.callsBack q = false

variable {d}

/-! ### Walks -/

section Walks

variable {base : Fin d.size}

theorem Walk.dest_eq {cs : List ByteSet} {t t' : Fin d.size} (hw : d.Walk base cs t)
    (hw' : d.Walk base cs t') : t = t' := by
  induction hw generalizing t' with
  | nil => cases hw' with
    | nil => rfl
  | step hq hc hne _ _ ih =>
    cases hw' with
    | step hq' hc' _ _ _ =>
      -- both walks take the same class from the same state
      have hsrc := ih hq'
      subst hsrc
      obtain ⟨b, hb⟩ := hne
      exact hb.symm.trans ((hc' b).mp ((hc b).mpr hb))

theorem Walk.run_eq {cs : List ByteSet} {t : Fin d.size} (hw : d.Walk base cs t) :
    ∀ w : List UInt8, List.Forall₂ (fun b c => c.contains b = true) w cs.reverse →
      d.run base w = t := by
  induction hw with
  | nil =>
    intro w hw
    rw [List.reverse_nil, List.forall₂_nil_right_iff] at hw
    subst hw
    rfl
  | @step cs q t c _ hc _ _ _ ih =>
    intro w hw
    -- the last byte of the word is read from the last class
    have hrev : List.Forall₂ (fun b c => c.contains b = true) w.reverse (c :: cs) := by
      rw [← List.forall₂_reverse_iff, List.reverse_reverse]
      exact hw
    generalize hv : w.reverse = v at hrev
    cases hrev with
    | cons hb hrest =>
      rename_i b rest
      have hw' : w = rest.reverse ++ [b] := by
        rw [← List.reverse_reverse w, hv, List.reverse_cons]
      have hq : d.run base rest.reverse = q := ih _ (List.forall₂_reverse_iff.mpr hrest)
      rw [hw', run, List.foldl_append, List.foldl_cons, List.foldl_nil]
      change d.next (d.run base rest.reverse) b = t
      rw [hq]
      exact (hc b).mp hb

/-- The states a walk passes through, first state first: the base, then one state per step,
each class holding the bytes from one state to the next. -/
theorem Walk.exists_states {cs : List ByteSet} {t : Fin d.size} (hw : d.Walk base cs t) :
    ∃ q : Nat → Fin d.size, q 0 = base ∧ q cs.length = t ∧
      ∀ m (hm : m < cs.reverse.length),
        (∀ b, cs.reverse[m].contains b = true ↔ d.next (q m) b = q (m + 1)) ∧
        (∃ b, cs.reverse[m].contains b = true) ∧ q (m + 1) ≠ base ∧
        d.callsBack (q m) = false := by
  induction hw with
  | nil => exact ⟨fun _ => base, rfl, rfl, fun m hm => by simp at hm⟩
  | @step cs q t c _ hc hne htb hcb ih =>
    obtain ⟨qs, h0, hlast, hsteps⟩ := ih
    -- the walk so far, then `t` after its last state
    refine ⟨fun m => if m = cs.length + 1 then t else qs m, by simp [h0], by simp, ?_⟩
    intro m hm
    simp only [List.reverse_cons, List.length_append, List.length_reverse,
      List.length_singleton] at hm
    by_cases hlt : m < cs.length
    · have hm' : m < cs.reverse.length := by simpa using hlt
      have hget : (c :: cs).reverse[m] = cs.reverse[m] := by
        simp only [List.reverse_cons]
        exact List.getElem_append_left hm'
      dsimp only
      rw [hget, if_neg (by omega), if_neg (by omega)]
      exact hsteps m hm'
    · have hm' : m = cs.length := by omega
      subst hm'
      have hget : (c :: cs).reverse[cs.length] = c := by simp
      dsimp only
      rw [hget, if_neg (by omega), if_pos rfl, hlast]
      obtain ⟨b, hb⟩ := hne
      exact ⟨hc, ⟨b, (hc b).mpr hb⟩, htb, hcb⟩

end Walks

/-! ### The successors of a state -/

theorem mem_successorClasses {q t : Fin d.size} {c : ByteSet} :
    (t, c) ∈ d.successorClasses d.symbolClasses q ↔
      (∃ b, d.next q b = t) ∧ c = ByteSet.filter fun b => d.next q b = t := by
  rw [successorClasses_symbolClasses, mem_groupByTarget]

theorem nodup_successorClasses (q : Fin d.size) :
    (d.successorClasses d.symbolClasses q).Nodup := by
  rw [successorClasses_symbolClasses]
  apply (pairwise_groupByTarget (d.next q)).imp
  intro x y hxy heq
  rw [heq] at hxy
  exact Fin.lt_irrefl _ hxy

/-! ### The frontier -/

section Frontier

variable {base : Fin d.size} {r : Nat}

/-- What the search keeps true of each path of its frontier after `r` rounds: it is a walk
from `base`, no longer than `r`, a dead path ends where the input may stop, and a live path
that may still grow has exactly `r` steps. -/
structure Sound (base : Fin d.size) (r : Nat) (p : Path (Fin d.size)) : Prop where
  walk : d.Walk base p.steps p.dest
  len_le : p.len ≤ r
  dead : p.ending = .dead → d.EndsDead p.dest
  live : p.ending = .live → d.callsBack p.dest = false → p.steps.length = r

theorem isDead_or_callsBack_eq_false {p : Path (Fin d.size)} :
    (p.isDead || d.callsBack p.dest) = false ↔
      p.ending = .live ∧ d.callsBack p.dest = false := by
  obtain ⟨steps, dest, ending⟩ := p
  cases ending <;> simp [Path.isDead]

theorem of_mem_offspring {succ : Fin d.size → List (Fin d.size × ByteSet)}
    {p x : Path (Fin d.size)} (hx : x ∈ d.offspring base succ p) :
    ((p.isDead || d.callsBack p.dest) = true ∧ x = p) ∨
      (p.ending = .live ∧ d.callsBack p.dest = false ∧
        (((d.hasReports p.dest || d.hasEodReports p.dest) = true ∧ x = p.toDead) ∨
          ∃ tc ∈ succ p.dest, tc.1 ≠ base ∧ x = p.append tc.2 tc.1)) := by
  cases hcar : (p.isDead || d.callsBack p.dest) with
  | true =>
    rw [offspring_of_carried succ (Bool.or_eq_true _ _ ▸ hcar), List.mem_singleton] at hx
    exact Or.inl ⟨rfl, hx⟩
  | false =>
    obtain ⟨hlive, hcb⟩ := isDead_or_callsBack_eq_false.mp hcar
    refine Or.inr ⟨hlive, hcb, ?_⟩
    rw [offspring_of_live succ hlive hcb, List.mem_append] at hx
    rcases hx with hx | hx
    · split at hx
      · exact Or.inl ⟨‹_›, List.mem_singleton.mp hx⟩
      · cases hx
    · obtain ⟨tc, htc, rfl⟩ := List.mem_map.mp hx
      rw [List.mem_filter, bne_iff_ne] at htc
      exact Or.inr ⟨tc, htc.1, htc.2, rfl⟩

theorem Sound.offspring {p x : Path (Fin d.size)} (hp : d.Sound base r p)
    (hx : x ∈ d.offspring base (d.successorClasses d.symbolClasses) p) :
    d.Sound base (r + 1) x := by
  rcases of_mem_offspring hx with
    ⟨hcar, rfl⟩ | ⟨hlive, hcb, ⟨hrep, rfl⟩ | ⟨⟨t, c⟩, htc, htb, rfl⟩⟩
  · -- carried over unchanged: it is dead or calls back, so it is not asked to grow
    refine ⟨hp.walk, Nat.le_succ_of_le hp.len_le, hp.dead, fun hlive hcb => ?_⟩
    have := isDead_or_callsBack_eq_false.mpr ⟨hlive, hcb⟩
    rw [hcar] at this
    cases this
  · -- the dead copy of a path that was asked to grow
    have hlen := hp.live hlive hcb
    refine ⟨hp.walk, by simp [hlen], fun _ => ⟨hrep, hcb⟩, fun h => ?_⟩
    cases h
  · -- one step to a successor other than the base
    obtain ⟨hne, rfl⟩ := mem_successorClasses.mp htc
    have hlen := hp.live hlive hcb
    have hstep : d.Walk base (p.append (ByteSet.filter fun b => d.next p.dest b = t) t).steps t :=
      Walk.step hp.walk (fun b => by simp) hne htb hcb
    refine ⟨hstep, by simp [hlen], fun h => ?_, fun _ _ => by simp [Path.append, hlen]⟩
    cases h

/-- Whom an offspring comes from: itself when it was carried over, and otherwise a live path
with the same steps or one step fewer. -/
theorem Sound.parent {p x : Path (Fin d.size)} (hp : d.Sound base r p)
    (hx : x ∈ d.offspring base (d.successorClasses d.symbolClasses) p) :
    (x.len ≤ r ∧ x = p) ∨
      (r < x.len ∧ x.ending = .dead ∧ p = ⟨x.steps, x.dest, .live⟩) ∨
      (r < x.len ∧ x.ending = .live ∧ p.steps = x.steps.tail ∧ p.ending = .live) := by
  rcases of_mem_offspring hx with
    ⟨_, rfl⟩ | ⟨hlive, hcb, ⟨_, rfl⟩ | ⟨tc, _, _, rfl⟩⟩
  · exact Or.inl ⟨hp.len_le, rfl⟩
  · have hlen := hp.live hlive hcb
    obtain ⟨steps, dest, ending⟩ := p
    simp only at hlive
    subst hlive
    exact Or.inr (Or.inl ⟨by simp [hlen], rfl, rfl⟩)
  · have hlen := hp.live hlive hcb
    exact Or.inr (Or.inr ⟨by simp [hlen], rfl, rfl, hlive⟩)

/-- Distinct frontier paths have no offspring in common. -/
theorem Sound.eq_of_mem_offspring {p p' x : Path (Fin d.size)} (hp : d.Sound base r p)
    (hp' : d.Sound base r p')
    (hx : x ∈ d.offspring base (d.successorClasses d.symbolClasses) p)
    (hx' : x ∈ d.offspring base (d.successorClasses d.symbolClasses) p') : p = p' := by
  rcases hp.parent hx with ⟨hle, rfl⟩ | ⟨hlt, hdead, rfl⟩ | ⟨hlt, hlive, hsteps, hplive⟩
  · -- `x` is `p` carried over, too short to be anything but `p'` carried over
    rcases hp'.parent hx' with ⟨_, rfl⟩ | ⟨hlt', -, -⟩ | ⟨hlt', -, -, -⟩
    · rfl
    · omega
    · omega
  · rcases hp'.parent hx' with ⟨hle', rfl⟩ | ⟨_, _, rfl⟩ | ⟨_, hlive', -, -⟩
    · omega
    · rfl
    · rw [hdead] at hlive'
      cases hlive'
  rcases hp'.parent hx' with ⟨hle', rfl⟩ | ⟨_, hdead', -⟩ | ⟨_, _, hsteps', hplive'⟩
  · omega
  · rw [hdead'] at hlive
    cases hlive
  -- two steps from live paths with the same steps, hence the same destination
  have hdest : p.dest = p'.dest := by
    apply Walk.dest_eq hp.walk
    rw [hsteps, ← hsteps']
    exact hp'.walk
  obtain ⟨steps, dest, ending⟩ := p
  obtain ⟨steps', dest', ending'⟩ := p'
  simp only at hsteps hsteps' hplive hplive' hdest
  subst hplive hplive' hdest
  rw [hsteps, hsteps']

theorem nodup_offspring (p : Path (Fin d.size)) :
    (d.offspring base (d.successorClasses d.symbolClasses) p).Nodup := by
  unfold offspring
  split
  · exact List.nodup_singleton p
  · rw [List.nodup_append]
    refine ⟨?_, ?_, ?_⟩
    · split
      · exact List.nodup_singleton _
      · exact List.nodup_nil
    · -- steps go to distinct targets
      apply ((nodup_successorClasses p.dest).filter _).map_on
      intro x _ y _ hxy
      simp only [Path.append, Path.mk.injEq, List.cons.injEq] at hxy
      exact Prod.ext hxy.2.1 hxy.1.1
    · intro a ha b hb hab
      split at ha
      · rw [List.mem_singleton] at ha
        obtain ⟨tc, -, rfl⟩ := List.mem_map.mp hb
        rw [ha] at hab
        exact absurd (congrArg Path.ending hab) (by simp [Path.toDead, Path.append])
      · cases ha

end Frontier

/-! ### The search -/

section Search

variable {base : Fin d.size}

/-- What the search from `base` keeps true after `r` rounds: the frontier fits the limit,
has no repeats and holds sound paths only, the empty path stays recorded at `base`, and
every recorded path ends where it is recorded and is no longer than `r`. -/
structure SearchInv (base : Fin d.size) (r : Nat) (s : Search d.size) : Prop where
  size_le : s.frontier.size ≤ pathLimit
  nodup : s.frontier.toList.Nodup
  sound : ∀ p ∈ s.frontier.toList, d.Sound base r p
  base_recorded : Path.empty base ∈ s.recorded.get base
  recorded_len : ∀ t, ∀ g ∈ s.recorded.get t, g.len ≤ r
  recorded_dest : ∀ t, ∀ g ∈ s.recorded.get t, g.dest = t

theorem searchInv_start (base : Fin d.size) : d.SearchInv base 0 (Search.start base) := by
  refine ⟨by simp [Search.start, pathLimit], by simp [Search.start], ?_, ?_, ?_, ?_⟩
  · intro p hp
    simp only [Search.start, List.mem_singleton] at hp
    subst hp
    refine ⟨Walk.nil, by simp [Path.empty, Path.len, Path.isDead], fun h => ?_, fun _ _ => rfl⟩
    simp [Path.empty] at h
  · exact Search.mem_recorded_start.mpr ⟨rfl, rfl⟩
  · intro t g hg
    obtain ⟨-, rfl⟩ := Search.mem_recorded_start.mp hg
    simp [Path.empty, Path.len, Path.isDead]
  · intro t g hg
    obtain ⟨rfl, rfl⟩ := Search.mem_recorded_start.mp hg
    rfl

theorem SearchInv.advance {r : Nat} {s : Search d.size} (h : d.SearchInv base r s) :
    d.SearchInv base (r + 1) (d.advance (d.successorClasses d.symbolClasses) s) := by
  have hsub := frontier_advance_sublist (d.successorClasses d.symbolClasses)
    h.base_recorded
  -- every new frontier path is an offspring of a sound path of the old frontier
  have hsound : ∀ x ∈ (d.advance (d.successorClasses d.symbolClasses) s).frontier.toList,
      d.Sound base (r + 1) x := by
    intro x hx
    obtain ⟨p, hp, hxp⟩ := List.mem_flatMap.mp (hsub.subset hx)
    exact (h.sound p hp).offspring hxp
  refine ⟨size_advance_le _ s, ?_, hsound, mem_recorded_advance h.base_recorded h.base_recorded,
    ?_, ?_⟩
  · apply hsub.nodup
    rw [List.nodup_flatMap]
    refine ⟨fun p _ => nodup_offspring p, ?_⟩
    apply h.nodup.imp_of_mem
    intro p p' hp hp' hne
    show List.Disjoint _ _
    rw [List.disjoint_left]
    intro x hx hx'
    exact hne ((h.sound p hp).eq_of_mem_offspring (h.sound p' hp') hx hx')
  · intro t g hg
    rcases recorded_advance h.base_recorded hg with hold | ⟨hnew, -⟩
    · exact Nat.le_succ_of_le (h.recorded_len t g hold)
    · exact (hsound g hnew).len_le
  · intro t g hg
    rcases recorded_advance h.base_recorded hg with hold | ⟨-, hdest⟩
    · exact h.recorded_dest t g hold
    · exact hdest

theorem SearchInv.rounds {r : Nat} {s : Search d.size} (h : d.SearchInv base r s) (k : Nat) :
    ∃ r' ≤ r + k, d.SearchInv base r' (d.rounds (d.successorClasses d.symbolClasses) k s) := by
  induction k generalizing r s with
  | zero => exact ⟨r, Nat.le_refl r, h⟩
  | succ k ih =>
    rw [Automaton.rounds]
    split
    · exact ⟨r, by omega, h⟩
    · obtain ⟨r', hr', hinv⟩ := ih h.advance
      exact ⟨r', by omega, hinv⟩

theorem searchInv_searchPaths (base : Fin d.size) (n : Nat) :
    ∃ r ≤ n, d.SearchInv base r (d.searchPaths base n) := by
  obtain ⟨r, hr, hinv⟩ := (searchInv_start (d := d) base).rounds n
  exact ⟨r, by omega, hinv⟩

end Search

theorem map_val_injective {n : Nat} : Function.Injective (Path.map (Fin.val : Fin n → Nat)) := by
  intro p p' h
  obtain ⟨steps, dest, ending⟩ := p
  obtain ⟨steps', dest', ending'⟩ := p'
  simp only [Path.map, Path.mk.injEq] at h
  obtain ⟨rfl, hdest, rfl⟩ := h
  rw [Fin.ext hdest]

/-- The search returns at most `pathLimit` paths, no two alike, and each is a walk of the
automaton from `base` of at most `n` steps. Its classes, first step first, hold exactly the
bytes from one state of the walk to the next, so each is non-empty and every word drawn
from them in turn leads from `base` to the destination. The walk never comes back to
`base` and leaves no state that calls back. A dead path ends in a state that reports, at
once or at the end of the input, and does not call back. -/
theorem generatePaths_walks (base : Fin d.size) (n : Nat) :
    (d.generatePaths base n).length ≤ pathLimit ∧ (d.generatePaths base n).Nodup ∧
    ∀ p ∈ d.generatePaths base n, p.classes.length ≤ n ∧
      (∃ q : Nat → Fin d.size, q 0 = base ∧ (q p.classes.length).val = p.dest ∧
        (∀ m (hm : m < p.classes.length),
          (∀ b, p.classes[m].contains b = true ↔ d.next (q m) b = q (m + 1)) ∧
          (∃ b, p.classes[m].contains b = true) ∧
          q (m + 1) ≠ base ∧ d.callsBack (q m) = false) ∧
        (p.ending = .dead → d.EndsDead (q p.classes.length))) ∧
      ∀ w : List UInt8, List.Forall₂ (fun b c => c.contains b = true) w p.classes →
        (d.run base w).val = p.dest := by
  obtain ⟨r, hr, hinv⟩ := searchInv_searchPaths (d := d) base n
  refine ⟨by simpa [generatePaths] using hinv.size_le,
    (List.nodup_map_iff map_val_injective).mpr hinv.nodup, ?_⟩
  intro p hp
  obtain ⟨p', hp', rfl⟩ := List.mem_map.mp hp
  have hsound := hinv.sound p' hp'
  have hclasses : (p'.map Fin.val).classes = p'.steps.reverse := rfl
  obtain ⟨q, h0, hlast, hsteps⟩ := hsound.walk.exists_states
  refine ⟨?_, ⟨q, h0, ?_, ?_, ?_⟩, ?_⟩
  · -- a path has no more steps than its length, and no path outlives the rounds
    have hlen := hsound.len_le
    simp only [hclasses, List.length_reverse]
    simp only [Path.len] at hlen
    omega
  · rw [hclasses, List.length_reverse, hlast]
    rfl
  · intro m hm
    exact hsteps m (by simpa [hclasses] using hm)
  · intro hdead
    simpa [hclasses, hlast] using hsound.dead hdead
  · intro w hw
    exact congrArg Fin.val (hsound.walk.run_eq w hw)

end SkipAhead.Automaton
