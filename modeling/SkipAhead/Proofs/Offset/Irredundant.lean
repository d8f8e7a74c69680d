import SkipAhead.Proofs.Offset.Walks

/-!
The surviving frontier is irredundant: no path recorded at the destination of a live path of
the frontier, other than the path itself and no longer than it, dominates it.

A round checks each step it keeps against the table as it stands, and during a round the
table gains only paths of the round's length (`RoundInv`). So a live path of the frontier is
dominated by no shorter recorded path: the shorter ones were all there when it was checked,
or it was carried over and was checked before. A path of the same length may be recorded
after the check; there determinism decides. Two walks of the same length from the base,
each class of one lying in the class of the other at the same step, take the same first
step, and so on to the end, so they are one walk (`Walk.eq_of_covers`); a dead path of that
length ends in the empty class, which covers no step.

Main statement: `searchPaths_irredundant`.
-/

namespace SkipAhead

namespace Search

variable {n : Nat}

theorem mem_keep {acc : Acc n} {p g : Path (Fin n)} {t : Fin n} (h : g ∈ (keep acc p).1.get t) :
    g ∈ acc.1.get t ∨ g = p := by
  unfold keep at h
  split at h
  · simp only [Automaton.get_setIfInBounds] at h
    split at h
    · rename_i ht
      subst ht
      exact (List.mem_cons.mp h).symm.imp_left id
    · exact Or.inl h
  · exact Or.inl h

theorem mem_offer {out : Array (Path (Fin n))} {p x : Path (Fin n)} (h : x ∈ (offer out p).toList) :
    x ∈ out.toList ∨ x = p := by
  unfold offer at h
  split at h
  · simpa using h
  · exact Or.inl h

/-- What a round started from `s`, the search after `r` rounds, keeps of its accumulator:
the table still holds what `s` recorded and has gained only paths of `r + 1` steps, and
every live path of the new generation was carried over from the frontier of `s` or is
dominated by no path `s` recorded at its destination. -/
structure RoundInv (s : Search n) (r : Nat) (acc : Acc n) : Prop where
  keeps : ∀ t g, g ∈ s.recorded.get t → g ∈ acc.1.get t
  fresh : ∀ t g, g ∈ acc.1.get t → g ∈ s.recorded.get t ∨ g.len = r + 1
  checked : ∀ x ∈ acc.2.toList, x.ending = .live →
    x ∈ s.frontier.toList ∨ ∀ g ∈ s.recorded.get x.dest, g.dominates x = false

variable {s : Search n} {r : Nat} {acc : Acc n}

theorem roundInv_init (s : Search n) (r : Nat) : RoundInv s r (s.recorded, #[]) :=
  ⟨fun _ _ h => h, fun _ _ h => Or.inl h, fun _ h => by simp at h⟩

theorem RoundInv.offer (h : RoundInv s r acc) {p : Path (Fin n)} (hp : p ∈ s.frontier.toList) :
    RoundInv s r (acc.1, Search.offer acc.2 p) := by
  refine ⟨h.keeps, h.fresh, ?_⟩
  intro x hx hlive
  rcases mem_offer hx with hx | rfl
  · exact h.checked x hx hlive
  · exact Or.inl hp

theorem RoundInv.keep (h : RoundInv s r acc) {x : Path (Fin n)} (hlen : x.len = r + 1)
    (hx : x.ending = .live → ∀ g ∈ s.recorded.get x.dest, g.dominates x = false) :
    RoundInv s r (Search.keep acc x) := by
  refine ⟨fun t g hg => (addsFrom_keep acc x).grows.recorded t g (h.keeps t g hg), ?_, ?_⟩
  · intro t g hg
    rcases mem_keep hg with hg | rfl
    · exact h.fresh t g hg
    · exact Or.inr hlen
  · intro y hy hlive
    rw [snd_keep] at hy
    rcases mem_offer hy with hy | rfl
    · exact h.checked y hy hlive
    · exact Or.inr (hx hlive)

end Search

namespace Automaton

variable {d : Automaton}

/-! ### Determinism -/

section Walks

variable {base : Fin d.size}

/-- Determinism: two walks of the same length from the base, each class of the second lying
in the class of the first at the same step, are one walk. -/
theorem Walk.eq_of_covers {gs ps : List ByteSet} {t t' : Fin d.size} (hg : d.Walk base gs t)
    (hp : d.Walk base ps t') (hlen : gs.length = ps.length) (hcov : Path.covers gs ps = true) :
    gs = ps ∧ t = t' := by
  induction hg generalizing ps t' with
  | nil =>
    cases hp with
    | nil => exact ⟨rfl, rfl⟩
    | step => simp at hlen
  | step _ hc _ _ _ ih =>
    cases hp with
    | nil => simp at hlen
    | step hq' hc' hne' _ _ =>
      rw [Path.covers_cons_cons, Bool.and_eq_true] at hcov
      obtain ⟨rfl, rfl⟩ := ih hq' (by simpa using hlen) hcov.2
      -- a byte of the second step is a byte of the first, so both steps reach one state
      obtain ⟨b, hb⟩ := hne'
      have hsub := ByteSet.isSubset_iff_contains.mp hcov.1 b ((hc' b).mpr hb)
      have ht := ((hc b).mp hsub).symm.trans hb
      subst ht
      refine ⟨?_, rfl⟩
      rw [ByteSet.ext_contains fun x => Bool.eq_iff_iff.mpr ((hc x).trans (hc' x).symm)]

/-- A path of walk classes that dominates a live walk of the same length is that walk: a
dead end would be an empty class over a step that some byte takes. -/
theorem eq_of_dominates_of_len_eq {g p : Path (Fin d.size)} (hg : d.Walk base g.steps g.dest)
    (hp : d.Walk base p.steps p.dest) (hlive : p.ending = .live) (hlen : g.len = p.len)
    (hdom : g.dominates p = true) : g = p := by
  obtain ⟨gs, gd, ge⟩ := g
  obtain ⟨ps, pd, pe⟩ := p
  simp only at hlive
  subst hlive
  cases ge with
  | live =>
    have hsteps : gs.length = ps.length := by simpa [Path.len, Path.isDead] using hlen
    obtain ⟨rfl, rfl⟩ := Walk.eq_of_covers hg hp hsteps hdom
    rfl
  | dead =>
    -- the live walk has a first step, on some byte, under the dead end's empty class
    obtain _ | ⟨c, cs⟩ := ps
    · simp [Path.len, Path.isDead] at hlen
    · have hne : ∃ b, c.contains b = true := by
        cases hp with
        | step _ hc hne _ _ =>
          obtain ⟨b, hb⟩ := hne
          exact ⟨b, (hc b).mpr hb⟩
      have hdom' : (⟨gs, gd, .dead⟩ : Path (Fin d.size)).dominates
          ((⟨cs, pd, .live⟩ : Path (Fin d.size)).append c pd) = true := hdom
      have hlive' := Path.live_of_dominates_append hdom' hne
      cases hlive'

end Walks

/-! ### One round -/

section Round

variable {s : Search d.size} {r : Nat} {acc : Search.Acc d.size}

theorem roundInv_stepTo (h : Search.RoundInv s r acc) {p : Path (Fin d.size)}
    (hlen : p.steps.length = r) (tc : Fin d.size × ByteSet) :
    Search.RoundInv s r (stepTo p acc tc) := by
  unfold stepTo
  split
  · rename_i huse
    apply h.keep (by simp [hlen])
    intro _ g hg
    -- the step was checked against a table holding everything `s` recorded
    simpa using List.all_eq_true.mp huse g (h.keeps _ g hg)
  · exact h

variable (succ : Fin d.size → List (Fin d.size × ByteSet))

theorem roundInv_extend (h : Search.RoundInv s r acc) {p : Path (Fin d.size)}
    (hp : p ∈ s.frontier.toList)
    (hgrow : p.ending = .live → d.callsBack p.dest = false → p.steps.length = r) :
    Search.RoundInv s r (d.extend succ acc p) := by
  rcases extend_cases succ acc p with ⟨-, heq⟩ | ⟨hlive, hcb, heq⟩
  · rw [heq]
    exact h.offer hp
  · have hlen := hgrow hlive hcb
    rw [heq]
    refine List.foldlRecOn (motive := Search.RoundInv s r) _ _ ?_
      fun _ hacc tc _ => roundInv_stepTo hacc hlen tc
    unfold withDeadCopy
    split
    · exact h.keep (by simp [hlen]) (fun hdead => by cases hdead)
    · exact h

/-- A round keeps `RoundInv` when every live frontier path asked to grow has `r` steps. -/
theorem roundInv_advance (hgrow : ∀ p ∈ s.frontier.toList, p.ending = .live →
      d.callsBack p.dest = false → p.steps.length = r) :
    Search.RoundInv s r ((d.advance succ s).recorded, (d.advance succ s).frontier) := by
  have h := List.foldlRecOn (motive := Search.RoundInv s r) s.frontier.toList (d.extend succ)
    (Search.roundInv_init s r) fun _ hacc p hp => roundInv_extend succ hacc hp (hgrow p hp)
  rw [Array.foldl_toList] at h
  exact h

end Round

/-! ### The search -/

section Search

variable {base : Fin d.size}

variable (d) in
/-- What keeps the frontier of the search from `base` irredundant: every recorded path is a
walk from `base`, and no recorded path shorter than a live path of the frontier dominates it. -/
structure Irredundant (base : Fin d.size) (s : Search d.size) : Prop where
  walk : ∀ t, ∀ g ∈ s.recorded.get t, d.Walk base g.steps g.dest
  shorter : ∀ p ∈ s.frontier.toList, p.ending = .live →
    ∀ g ∈ s.recorded.get p.dest, g.len < p.len → g.dominates p = false

theorem irredundant_start (base : Fin d.size) : d.Irredundant base (Search.start base) := by
  refine ⟨?_, ?_⟩
  · intro t g hg
    obtain ⟨-, rfl⟩ := Search.mem_recorded_start.mp hg
    exact Walk.nil
  · intro p hp _ g hg hlt
    simp only [Search.start, List.mem_singleton] at hp
    subst hp
    simp [Path.empty, Path.len, Path.isDead] at hlt

theorem Irredundant.advance {r : Nat} {s : Search d.size} (hinv : d.SearchInv base r s)
    (h : d.Irredundant base s) :
    d.Irredundant base (d.advance (d.successorClasses d.symbolClasses) s) := by
  have hround := roundInv_advance (d.successorClasses d.symbolClasses)
    (fun p hp => (hinv.sound p hp).live)
  have hinv' := hinv.advance
  refine ⟨?_, ?_⟩
  · intro t g hg
    rcases recorded_advance hinv.base_recorded hg with hold | ⟨hnew, -⟩
    · exact h.walk t g hold
    · exact (hinv'.sound g hnew).walk
  · intro x hx hlive g hg hlt
    -- `g` is shorter than a path of the new generation, so it was recorded before the round
    have hxlen := (hinv'.sound x hx).len_le
    have hold : g ∈ s.recorded.get x.dest := (hround.fresh _ g hg).resolve_right (by omega)
    rcases hround.checked x hx hlive with hcarried | hchecked
    · exact h.shorter x hcarried hlive g hold hlt
    · exact hchecked g hold

theorem Irredundant.rounds {r : Nat} {s : Search d.size} (hinv : d.SearchInv base r s)
    (h : d.Irredundant base s) (k : Nat) :
    d.Irredundant base (d.rounds (d.successorClasses d.symbolClasses) k s) := by
  induction k generalizing r s with
  | zero => exact h
  | succ k ih =>
    rw [Automaton.rounds]
    split
    · exact h
    · exact ih hinv.advance (h.advance hinv)

theorem irredundant_searchPaths (base : Fin d.size) (n : Nat) :
    d.Irredundant base (d.searchPaths base n) :=
  (irredundant_start base).rounds (searchInv_start base) n

end Search

/-- The surviving frontier is irredundant. For a live path `p` of the frontier of the search
from `base` and a path `g` recorded at its destination, other than `p` and no longer than
it, `g` does not dominate `p`: `p` is useful against `g`. -/
theorem searchPaths_irredundant (base : Fin d.size) (n : Nat) (p g : Path (Fin d.size))
    (hp : p ∈ (d.searchPaths base n).frontier.toList) (hlive : p.ending = .live)
    (hg : g ∈ (d.searchPaths base n).recorded.get p.dest) (hne : g ≠ p) (hlen : g.len ≤ p.len) :
    g.dominates p = false ∧ Path.isUseful [g] p = true := by
  obtain ⟨r, -, hinv⟩ := searchInv_searchPaths (d := d) base n
  have hirr := irredundant_searchPaths (d := d) base n
  have hdom : g.dominates p = false := by
    rcases Nat.lt_or_eq_of_le hlen with hlt | heq
    · exact hirr.shorter p hp hlive g hg hlt
    · -- of the same length, only `p` itself could dominate `p`
      cases hd : g.dominates p with
      | false => rfl
      | true =>
        exact absurd (eq_of_dominates_of_len_eq (hirr.walk _ g hg) (hinv.sound p hp).walk hlive
          heq hd) hne
  exact ⟨hdom, by simp [Path.isUseful, hdom]⟩

/-- Two routes of two steps from the start into one state: on `a` and then any byte, or on two
bytes other than `a`. -/
def twoRoutes : Automaton where
  kind := .Prefix
  size := 4
  alphabetLen := 2
  symbolOf := Vector.ofFn fun b => ⟨(decide (b = 97)).toNat, Bool.toNat_lt _⟩
  table := #v[#v[0, 0], #v[3, 2], #v[2, 2], #v[2, 3]]
  reports := #v[[], [], [], []]
  eodReports := #v[[], [], [], []]
  startAnchored := 1
  startFloating := 1
  size_pos := by decide
  size_le := by decide
  dead_absorbing := by decide

/-- The second route is recorded after the first is taken into the frontier, in the same
round, so the first is never checked against it; still it does not dominate the first. -/
theorem searchPaths_irredundant_twoRoutes :
    let t := twoRoutes.next twoRoutes.startFloating 97
    let p : Path (Fin twoRoutes.size) := Path.ofClasses [ByteSet.singleton 97, ByteSet.full] t .live
    let g : Path (Fin twoRoutes.size) :=
      Path.ofClasses [(ByteSet.singleton 97).compl, (ByteSet.singleton 97).compl] t .live
    p ∈ (twoRoutes.searchPaths twoRoutes.startFloating 2).frontier.toList ∧ p.ending = .live ∧
      g ∈ (twoRoutes.searchPaths twoRoutes.startFloating 2).recorded.get p.dest ∧ g ≠ p ∧
      g.len ≤ p.len ∧ (g.dominates p = false ∧ Path.isUseful [g] p = true) := by
  intro t p g
  -- one evaluation of the search serves both memberships
  obtain ⟨hp, hg⟩ : p ∈ (twoRoutes.searchPaths twoRoutes.startFloating 2).frontier.toList ∧
      g ∈ (twoRoutes.searchPaths twoRoutes.startFloating 2).recorded.get p.dest := by
    decide +kernel
  have hne : g ≠ p := by decide +kernel
  have hlen : g.len ≤ p.len := by decide +kernel
  exact ⟨hp, rfl, hg, hne, hlen,
    searchPaths_irredundant twoRoutes.startFloating 2 p g hp rfl hg hne hlen⟩

end Automaton

end SkipAhead
