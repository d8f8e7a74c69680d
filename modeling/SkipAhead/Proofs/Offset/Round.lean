import SkipAhead.Proofs.Accel.Reach
import SkipAhead.Proofs.ByteSet.Denotation

/-!
One round of the path search, seen from outside. Dominance is a preorder on paths of
ordered lengths: every path dominates itself, the empty path dominates every path, one
more common step keeps it, and it composes when the lengths are ordered.

A round threads an accumulator (the recorded paths and the generation built so far)
through the paths of the frontier. Every change it makes to the accumulator adds some of
a path's *offspring* to the end of the generation, in order, and records only paths it
added (`AddsFrom`). So the next frontier is a sublist of the offspring of the current one,
and every path recorded in a round belongs to the next frontier. A round also settles
every step it looks at: once done, a recorded path dominates the step, unless the
generation filled up.

Finally, the rounds stop at the first full frontier: `rounds_succ` peels off the last
round.
-/

namespace SkipAhead

namespace ByteSet

theorem isSubset_iff_contains {s t : ByteSet} :
    s.isSubset t = true ↔ ∀ b, s.contains b = true → t.contains b = true := by
  rw [isSubset_iff]
  constructor
  · intro h b hb
    exact mem_members.mp (h (mem_members.mpr hb))
  · intro h b hb
    exact mem_members.mpr (h b (mem_members.mp hb))

@[simp] theorem isSubset_self (s : ByteSet) : s.isSubset s = true :=
  isSubset_iff_contains.mpr fun _ hb => hb

theorem isSubset_trans {s t u : ByteSet} (hst : s.isSubset t = true) (htu : t.isSubset u = true) :
    s.isSubset u = true :=
  isSubset_iff_contains.mpr fun b hb =>
    isSubset_iff_contains.mp htu b (isSubset_iff_contains.mp hst b hb)

end ByteSet

namespace Path

variable {σ : Type}

@[simp] theorem covers_nil_left (ps : List ByteSet) : covers [] ps = true := by
  cases ps <;> rfl

@[simp] theorem covers_nil_right (gs : List ByteSet) : covers gs [] = true := by
  cases gs <;> rfl

@[simp] theorem covers_cons_cons (gc pc : ByteSet) (gs ps : List ByteSet) :
    covers (gc :: gs) (pc :: ps) = (pc.isSubset gc && covers gs ps) := rfl

@[simp] theorem covers_self (cs : List ByteSet) : covers cs cs = true := by
  induction cs with
  | nil => rfl
  | cons c cs ih => simp [ih]

theorem covers_trans {as bs cs : List ByteSet} (hab : covers as bs = true)
    (hbc : covers bs cs = true) (hlen : as.length ≤ bs.length) : covers as cs = true := by
  induction as generalizing bs cs with
  | nil => simp
  | cons a as ih =>
    -- `bs` is at least as long, so it has a head to compare with
    obtain _ | ⟨b, bs⟩ := bs
    · simp at hlen
    · obtain _ | ⟨c, cs⟩ := cs
      · simp
      · simp only [covers_cons_cons, Bool.and_eq_true] at hab hbc ⊢
        exact ⟨ByteSet.isSubset_trans hbc.1 hab.1,
          ih hab.2 hbc.2 (by simpa using hlen)⟩

@[simp] theorem length_backward (p : Path σ) : p.backward.length = p.len := by
  obtain ⟨steps, dest, ending⟩ := p
  cases ending <;> simp [backward, len, isDead]

theorem backward_of_live {p : Path σ} (h : p.ending = .live) : p.backward = p.steps := by
  obtain ⟨steps, dest, ending⟩ := p
  subst h
  rfl

@[simp] theorem backward_append (p : Path σ) (c : ByteSet) (t : σ) :
    (p.append c t).backward = c :: p.steps := rfl

@[simp] theorem len_append (p : Path σ) (c : ByteSet) (t : σ) :
    (p.append c t).len = p.steps.length + 1 := by
  simp [append, len, isDead]

@[simp] theorem len_toDead (p : Path σ) : p.toDead.len = p.steps.length + 1 := by
  simp [toDead, len, isDead]

@[simp] theorem empty_dominates (base : σ) (p : Path σ) : (empty base).dominates p = true := by
  simp [dominates, empty, backward]

@[simp] theorem dominates_self (p : Path σ) : p.dominates p = true := by
  simp [dominates]

theorem dominates_append {g p : Path σ} (hg : g.ending = .live) (hp : p.ending = .live)
    (h : g.dominates p = true) (c : ByteSet) (t u : σ) :
    (g.append c t).dominates (p.append c u) = true := by
  rw [dominates, backward_of_live hg, backward_of_live hp] at h
  simp [dominates, h]

theorem dominates_trans {h g p : Path σ} (hhg : h.dominates g = true) (hgp : g.dominates p = true)
    (hlen : h.len ≤ g.len) : h.dominates p = true := by
  apply covers_trans hhg hgp
  simpa using hlen

/-- A dead path dominates no step on a non-empty class: its end reads as the empty class. -/
theorem live_of_dominates_append {g p : Path σ} {c : ByteSet} {t : σ}
    (h : g.dominates (p.append c t) = true) (hc : ∃ b, c.contains b = true) :
    g.ending = .live := by
  obtain ⟨steps, dest, ending⟩ := g
  cases ending with
  | live => rfl
  | dead =>
    obtain ⟨b, hb⟩ := hc
    have hback : (⟨steps, dest, .dead⟩ : Path σ).backward = ByteSet.empty :: steps := rfl
    rw [dominates, hback, backward_append, covers_cons_cons, Bool.and_eq_true] at h
    have := ByteSet.isSubset_iff_contains.mp h.1 b hb
    simp at this

theorem isUseful_eq_false_iff {recorded : List (Path σ)} {p : Path σ} :
    isUseful recorded p = false ↔ ∃ g ∈ recorded, g.dominates p = true := by
  simp [isUseful]

end Path

namespace Search

variable {n : Nat}

abbrev Acc (n : Nat) : Type := Vector (List (Path (Fin n))) n × Array (Path (Fin n))

/-- `acc'` comes from `acc` by recording and adding paths: nothing recorded is lost and the
generation only grows at its end. -/
structure Grows (acc acc' : Acc n) : Prop where
  recorded : ∀ t g, g ∈ acc.1.get t → g ∈ acc'.1.get t
  initial : acc.2.toList <+: acc'.2.toList

theorem Grows.refl (acc : Acc n) : Grows acc acc :=
  ⟨fun _ _ h => h, List.prefix_refl _⟩

theorem Grows.trans {a b c : Acc n} (hab : Grows a b) (hbc : Grows b c) : Grows a c :=
  ⟨fun t g h => hbc.recorded t g (hab.recorded t g h), hab.initial.trans hbc.initial⟩

theorem Grows.size_le {a b : Acc n} (h : Grows a b) : a.2.size ≤ b.2.size := by
  simpa using h.initial.length_le

/-- `acc'` comes from `acc` by adding some of `cands` to the end of the generation, in order,
and recording only paths it added, each at its destination. -/
structure AddsFrom (cands : List (Path (Fin n))) (acc acc' : Acc n) : Prop where
  grows : Grows acc acc'
  added : ∃ l, acc'.2.toList = acc.2.toList ++ l ∧ l.Sublist cands
  recorded :
    ∀ t g, g ∈ acc'.1.get t → g ∈ acc.1.get t ∨ (g ∈ acc'.2.toList ∧ g.dest = t)

theorem AddsFrom.refl (cands : List (Path (Fin n))) (acc : Acc n) : AddsFrom cands acc acc :=
  ⟨Grows.refl acc, ⟨[], by simp, List.nil_sublist _⟩, fun _ _ h => Or.inl h⟩

theorem AddsFrom.trans {c c' : List (Path (Fin n))} {a b e : Acc n} (hab : AddsFrom c a b)
    (hbe : AddsFrom c' b e) : AddsFrom (c ++ c') a e := by
  obtain ⟨hg, ⟨l, hl, hsub⟩, hrec⟩ := hab
  obtain ⟨hg', ⟨l', hl', hsub'⟩, hrec'⟩ := hbe
  refine ⟨hg.trans hg', ⟨l ++ l', by rw [hl', hl, List.append_assoc], hsub.append hsub'⟩,
    ?_⟩
  intro t g hge
  rcases hrec' t g hge with hgb | hnew
  · rcases hrec t g hgb with hga | ⟨hgb2, hdest⟩
    · exact Or.inl hga
    · exact Or.inr ⟨hg'.initial.subset hgb2, hdest⟩
  · exact Or.inr hnew

theorem addsFrom_offer (acc : Acc n) (p : Path (Fin n)) :
    AddsFrom [p] acc (acc.1, offer acc.2 p) := by
  unfold offer
  split
  · exact ⟨⟨fun _ _ h => h, ⟨[p], by simp⟩⟩, ⟨[p], by simp, List.Sublist.refl _⟩,
      fun _ _ h => Or.inl h⟩
  · exact AddsFrom.refl _ _

theorem addsFrom_keep (acc : Acc n) (p : Path (Fin n)) : AddsFrom [p] acc (keep acc p) := by
  unfold keep
  split
  · refine ⟨⟨?_, ⟨[p], by simp⟩⟩, ⟨[p], by simp, List.Sublist.refl _⟩, ?_⟩
    · -- recording puts `p` in front of what its destination held
      intro t g hg
      simp only [Automaton.get_setIfInBounds]
      split
      · subst t
        exact List.mem_cons_of_mem p hg
      · exact hg
    · intro t g hg
      simp only [Automaton.get_setIfInBounds] at hg
      split at hg
      · subst t
        rcases List.mem_cons.mp hg with rfl | hg
        · exact Or.inr ⟨by simp, rfl⟩
        · exact Or.inl hg
      · exact Or.inl hg
  · exact AddsFrom.refl _ _

theorem mem_recorded_start {base t : Fin n} {g : Path (Fin n)} :
    g ∈ (start base).recorded.get t ↔ t = base ∧ g = Path.empty base := by
  simp only [start, Automaton.get_setIfInBounds]
  split
  · simp [*]
  · change g ∈ (Vector.replicate n [])[t.val] ↔ _
    simp [*]

theorem mem_keep_of_lt {acc : Acc n} (h : acc.2.size < pathLimit) (p : Path (Fin n)) :
    p ∈ (keep acc p).1.get p.dest := by
  simp [keep, h, Automaton.get_setIfInBounds]

theorem size_offer_le {out : Array (Path (Fin n))} (h : out.size ≤ pathLimit) (p : Path (Fin n)) :
    (offer out p).size ≤ pathLimit := by
  unfold offer
  split
  · simp only [Array.size_push]
    omega
  · exact h

@[simp] theorem snd_keep (acc : Acc n) (p : Path (Fin n)) : (keep acc p).2 = offer acc.2 p := by
  unfold keep offer
  split <;> rfl

theorem size_keep_le {acc : Acc n} (h : acc.2.size ≤ pathLimit) (p : Path (Fin n)) :
    (keep acc p).2.size ≤ pathLimit := by
  rw [snd_keep]
  exact size_offer_le h p

end Search

namespace Automaton

variable {d : Automaton}

def callsBack (d : Automaton) (q : Fin d.size) : Bool := d.generatesCallbacks && d.hasReports q

/-- The accumulator after offering `p` one step to `tc.1` on the bytes `tc.2`: kept unless a
recorded path dominates it. -/
def stepTo (p : Path (Fin d.size)) (acc : Search.Acc d.size) (tc : Fin d.size × ByteSet) :
    Search.Acc d.size :=
  if Path.isUseful (acc.1.get tc.1) (p.append tc.2 tc.1) then Search.keep acc (p.append tc.2 tc.1)
  else acc

def withDeadCopy (d : Automaton) (acc : Search.Acc d.size) (p : Path (Fin d.size)) :
    Search.Acc d.size :=
  if d.hasReports p.dest || d.hasEodReports p.dest then Search.keep acc p.toDead else acc

/-- What the path `p` may add to the next generation, in order: itself when it is dead or
ends in a state that calls back; otherwise its dead copy when its destination reports, then
its steps to every successor other than `base`. -/
def offspring (d : Automaton) (base : Fin d.size)
    (succ : Fin d.size → List (Fin d.size × ByteSet)) (p : Path (Fin d.size)) :
    List (Path (Fin d.size)) :=
  if p.isDead || d.callsBack p.dest then [p]
  else (if d.hasReports p.dest || d.hasEodReports p.dest then [p.toDead] else []) ++
    ((succ p.dest).filter fun tc => tc.1 != base).map fun tc => p.append tc.2 tc.1

section Extend

variable (succ : Fin d.size → List (Fin d.size × ByteSet)) (acc : Search.Acc d.size)

theorem extend_of_dead {p : Path (Fin d.size)} (h : p.ending = .dead) :
    d.extend succ acc p = (acc.1, Search.offer acc.2 p) := by
  simp [extend, h]

theorem extend_of_callsBack {p : Path (Fin d.size)} (h : p.ending = .live)
    (hc : d.callsBack p.dest = true) : d.extend succ acc p = (acc.1, Search.offer acc.2 p) := by
  simp only [callsBack] at hc
  simp [extend, h, hc]

theorem extend_of_live {p : Path (Fin d.size)} (h : p.ending = .live)
    (hc : d.callsBack p.dest = false) :
    d.extend succ acc p = (succ p.dest).foldl (stepTo p) (d.withDeadCopy acc p) := by
  simp only [callsBack] at hc
  simp only [extend, h, hc, Bool.false_eq_true, ↓reduceIte]
  rfl

theorem offspring_of_carried {base : Fin d.size} {p : Path (Fin d.size)}
    (h : p.isDead = true ∨ d.callsBack p.dest = true) : d.offspring base succ p = [p] := by
  have h' : (p.isDead || d.callsBack p.dest) = true := by simpa using h
  simp [offspring, h']

theorem offspring_of_live {base : Fin d.size} {p : Path (Fin d.size)} (h : p.ending = .live)
    (hc : d.callsBack p.dest = false) :
    d.offspring base succ p =
      (if d.hasReports p.dest || d.hasEodReports p.dest then [p.toDead] else []) ++
        ((succ p.dest).filter fun tc => tc.1 != base).map fun tc => p.append tc.2 tc.1 := by
  simp [offspring, Path.isDead, h, hc]

/-- What handling `p` does: it carries `p` over when `p` is dead or ends in a state that calls
back; otherwise it keeps `p`'s dead copy when its destination reports and offers its steps. -/
theorem extend_cases (p : Path (Fin d.size)) :
    ((p.isDead || d.callsBack p.dest) = true ∧
        d.extend succ acc p = (acc.1, Search.offer acc.2 p)) ∨
      (p.ending = .live ∧ d.callsBack p.dest = false ∧
        d.extend succ acc p = (succ p.dest).foldl (stepTo p) (d.withDeadCopy acc p)) := by
  cases hend : p.ending with
  | dead => exact Or.inl ⟨by simp [Path.isDead, hend], extend_of_dead succ acc hend⟩
  | live =>
    cases hcb : d.callsBack p.dest with
    | true => exact Or.inl ⟨by simp, extend_of_callsBack succ acc hend hcb⟩
    | false => exact Or.inr ⟨rfl, rfl, extend_of_live succ acc hend hcb⟩

end Extend

section Adds

variable {base : Fin d.size} {succ : Fin d.size → List (Fin d.size × ByteSet)}

/-- A step back to `base` is never kept: the empty path recorded there dominates it. -/
theorem addsFrom_stepTo {acc : Search.Acc d.size} (hbase : Path.empty base ∈ acc.1.get base)
    (p : Path (Fin d.size)) (tc : Fin d.size × ByteSet) :
    Search.AddsFrom (if tc.1 = base then [] else [p.append tc.2 tc.1]) acc (stepTo p acc tc) := by
  by_cases htb : tc.1 = base
  · have huse : Path.isUseful (acc.1.get tc.1) (p.append tc.2 tc.1) = false :=
      Path.isUseful_eq_false_iff.mpr ⟨Path.empty base, htb ▸ hbase, Path.empty_dominates _ _⟩
    rw [stepTo, huse, if_pos htb]
    exact Search.AddsFrom.refl _ _
  · rw [if_neg htb, stepTo]
    split
    · exact Search.addsFrom_keep acc _
    · exact Search.AddsFrom.refl _ _

theorem addsFrom_foldl_stepTo (p : Path (Fin d.size)) (tcs : List (Fin d.size × ByteSet)) :
    ∀ {acc : Search.Acc d.size}, Path.empty base ∈ acc.1.get base →
      Search.AddsFrom ((tcs.filter fun tc => tc.1 != base).map fun tc => p.append tc.2 tc.1)
        acc (tcs.foldl (stepTo p) acc) := by
  induction tcs with
  | nil => exact fun {acc} _ => Search.AddsFrom.refl _ acc
  | cons tc tcs ih =>
    intro acc hbase
    have h1 := addsFrom_stepTo hbase p tc
    have h2 := ih (h1.grows.recorded base _ hbase)
    rw [List.foldl_cons]
    by_cases htb : tc.1 = base
    · rw [if_pos htb] at h1
      have h := h1.trans h2
      simpa [htb] using h
    · rw [if_neg htb] at h1
      have h := h1.trans h2
      simpa [htb] using h

theorem addsFrom_withDeadCopy (acc : Search.Acc d.size) (p : Path (Fin d.size)) :
    Search.AddsFrom (if d.hasReports p.dest || d.hasEodReports p.dest then [p.toDead] else [])
      acc (d.withDeadCopy acc p) := by
  unfold withDeadCopy
  split
  · exact Search.addsFrom_keep acc _
  · exact Search.AddsFrom.refl _ _

variable (succ) in
theorem addsFrom_extend {acc : Search.Acc d.size} (hbase : Path.empty base ∈ acc.1.get base)
    (p : Path (Fin d.size)) :
    Search.AddsFrom (d.offspring base succ p) acc (d.extend succ acc p) := by
  rcases extend_cases succ acc p with ⟨hcarried, heq⟩ | ⟨hlive, hcb, heq⟩
  · rw [heq, offspring_of_carried succ (Bool.or_eq_true _ _ ▸ hcarried)]
    exact Search.addsFrom_offer acc p
  · rw [heq, offspring_of_live succ hlive hcb]
    have hdead := addsFrom_withDeadCopy acc p
    exact hdead.trans (addsFrom_foldl_stepTo p (succ p.dest) (hdead.grows.recorded base _ hbase))

variable (succ) in
theorem addsFrom_foldl_extend (ps : List (Path (Fin d.size))) :
    ∀ acc : Search.Acc d.size, Path.empty base ∈ acc.1.get base →
      Search.AddsFrom (ps.flatMap (d.offspring base succ)) acc (ps.foldl (d.extend succ) acc) := by
  induction ps with
  | nil => exact fun acc _ => Search.AddsFrom.refl _ acc
  | cons p ps ih =>
    intro acc hbase
    have h1 := addsFrom_extend succ hbase p
    rw [List.foldl_cons, List.flatMap_cons]
    exact h1.trans (ih _ (h1.grows.recorded base _ hbase))

variable (succ) in
/-- A round adds some of the offspring of the frontier, in order, and records only paths of
the new frontier. -/
theorem addsFrom_advance {s : Search d.size} (hbase : Path.empty base ∈ s.recorded.get base) :
    Search.AddsFrom (s.frontier.toList.flatMap (d.offspring base succ)) (s.recorded, #[])
      ((d.advance succ s).recorded, (d.advance succ s).frontier) := by
  have h := addsFrom_foldl_extend succ s.frontier.toList (s.recorded, #[]) hbase
  rw [Array.foldl_toList] at h
  exact h

variable (succ) in
theorem frontier_advance_sublist {s : Search d.size}
    (hbase : Path.empty base ∈ s.recorded.get base) :
    (d.advance succ s).frontier.toList.Sublist
      (s.frontier.toList.flatMap (d.offspring base succ)) := by
  obtain ⟨l, hl, hsub⟩ := (addsFrom_advance succ hbase).added
  simp only [List.nil_append] at hl
  rw [hl]
  exact hsub

theorem mem_recorded_advance {s : Search d.size} (hbase : Path.empty base ∈ s.recorded.get base)
    {t : Fin d.size} {g : Path (Fin d.size)} (h : g ∈ s.recorded.get t) :
    g ∈ (d.advance succ s).recorded.get t :=
  (addsFrom_advance succ hbase).grows.recorded t g h

theorem recorded_advance {s : Search d.size} (hbase : Path.empty base ∈ s.recorded.get base)
    {t : Fin d.size} {g : Path (Fin d.size)} (h : g ∈ (d.advance succ s).recorded.get t) :
    g ∈ s.recorded.get t ∨ (g ∈ (d.advance succ s).frontier.toList ∧ g.dest = t) :=
  (addsFrom_advance succ hbase).recorded t g h

theorem grows_foldl_stepTo (p : Path (Fin d.size)) (tcs : List (Fin d.size × ByteSet))
    {acc : Search.Acc d.size} (hbase : Path.empty base ∈ acc.1.get base) :
    Search.Grows acc (tcs.foldl (stepTo p) acc) :=
  (addsFrom_foldl_stepTo p tcs hbase).grows

variable (succ) in
theorem grows_foldl_extend (ps : List (Path (Fin d.size))) (acc : Search.Acc d.size)
    (hbase : Path.empty base ∈ acc.1.get base) :
    Search.Grows acc (ps.foldl (d.extend succ) acc) :=
  (addsFrom_foldl_extend succ ps acc hbase).grows

end Adds

section Size

variable (succ : Fin d.size → List (Fin d.size × ByteSet))

theorem size_foldl_stepTo_le (p : Path (Fin d.size)) (tcs : List (Fin d.size × ByteSet)) :
    ∀ {acc : Search.Acc d.size}, acc.2.size ≤ pathLimit →
      (tcs.foldl (stepTo p) acc).2.size ≤ pathLimit := by
  induction tcs with
  | nil => exact fun h => h
  | cons tc tcs ih =>
    intro acc h
    apply ih
    unfold stepTo
    split
    · exact Search.size_keep_le h _
    · exact h

theorem size_extend_le {acc : Search.Acc d.size} (h : acc.2.size ≤ pathLimit)
    (p : Path (Fin d.size)) : (d.extend succ acc p).2.size ≤ pathLimit := by
  rcases extend_cases succ acc p with ⟨-, heq⟩ | ⟨-, -, heq⟩
  · rw [heq]
    exact Search.size_offer_le h p
  · rw [heq]
    apply size_foldl_stepTo_le
    unfold withDeadCopy
    split
    · exact Search.size_keep_le h _
    · exact h

/-- A generation never holds more than `pathLimit` paths. -/
theorem size_advance_le (s : Search d.size) : (d.advance succ s).frontier.size ≤ pathLimit := by
  have hfold : ∀ (ps : List (Path (Fin d.size))) (acc : Search.Acc d.size),
      acc.2.size ≤ pathLimit → (ps.foldl (d.extend succ) acc).2.size ≤ pathLimit := by
    intro ps
    induction ps with
    | nil => exact fun _ h => h
    | cons p ps ih => exact fun acc h => ih _ (size_extend_le succ h p)
  have h := hfold s.frontier.toList (s.recorded, #[]) (by simp [pathLimit])
  rw [Array.foldl_toList] at h
  exact h

end Size

section Settle

variable {base : Fin d.size} {succ : Fin d.size → List (Fin d.size × ByteSet)}

/-- The step `q` is settled in `acc` when a path recorded at its destination dominates it or
the generation is full. -/
def Settled (q : Path (Fin d.size)) (acc : Search.Acc d.size) : Prop :=
  (∃ g ∈ acc.1.get q.dest, g.dominates q = true) ∨ pathLimit ≤ acc.2.size

theorem Settled.grows {q : Path (Fin d.size)} {a b : Search.Acc d.size} (h : Settled q a)
    (hab : Search.Grows a b) : Settled q b := by
  rcases h with ⟨g, hg, hdom⟩ | hfull
  · exact Or.inl ⟨g, hab.recorded _ g hg, hdom⟩
  · exact Or.inr (Nat.le_trans hfull hab.size_le)

theorem settled_stepTo (p : Path (Fin d.size)) (acc : Search.Acc d.size)
    (tc : Fin d.size × ByteSet) : Settled (p.append tc.2 tc.1) (stepTo p acc tc) := by
  unfold stepTo
  split
  · by_cases hroom : acc.2.size < pathLimit
    · exact Or.inl ⟨_, Search.mem_keep_of_lt hroom _, Path.dominates_self _⟩
    · have hkeep : Search.keep acc (p.append tc.2 tc.1) = acc := by
        simp [Search.keep, hroom]
      rw [hkeep]
      exact Or.inr (Nat.le_of_not_lt hroom)
  · rename_i huse
    obtain ⟨g, hg, hdom⟩ := Path.isUseful_eq_false_iff.mp (Bool.eq_false_iff.mpr huse)
    exact Or.inl ⟨g, hg, hdom⟩

variable (succ) in
theorem settled_extend {acc : Search.Acc d.size} (hbase : Path.empty base ∈ acc.1.get base)
    {p : Path (Fin d.size)} (hlive : p.ending = .live) (hcb : d.callsBack p.dest = false)
    {tc : Fin d.size × ByteSet} (htc : tc ∈ succ p.dest) :
    Settled (p.append tc.2 tc.1) (d.extend succ acc p) := by
  rw [extend_of_live succ acc hlive hcb]
  obtain ⟨pre, post, hsplit⟩ := List.append_of_mem htc
  have hbase' : Path.empty base ∈ (d.withDeadCopy acc p).1.get base :=
    (addsFrom_withDeadCopy acc p).grows.recorded base _ hbase
  have hpre := grows_foldl_stepTo p pre hbase'
  have hstep := settled_stepTo p (pre.foldl (stepTo p) (d.withDeadCopy acc p)) tc
  rw [hsplit, List.foldl_append, List.foldl_cons]
  exact hstep.grows (grows_foldl_stepTo p post
    ((addsFrom_stepTo (hpre.recorded base _ hbase') p tc).grows.recorded base _
      (hpre.recorded base _ hbase')))

/-- After a round, a path recorded at its destination dominates every step offered from a
live frontier path that does not call back, unless the new generation is full. -/
theorem exists_dominating_of_advance {s : Search d.size}
    (hbase : Path.empty base ∈ s.recorded.get base) {p : Path (Fin d.size)}
    (hp : p ∈ s.frontier.toList) (hlive : p.ending = .live) (hcb : d.callsBack p.dest = false)
    {tc : Fin d.size × ByteSet} (htc : tc ∈ succ p.dest)
    (hroom : (d.advance succ s).frontier.size < pathLimit) :
    ∃ g ∈ (d.advance succ s).recorded.get tc.1, g.dominates (p.append tc.2 tc.1) = true := by
  obtain ⟨pre, post, hsplit⟩ := List.append_of_mem hp
  let acc₀ : Search.Acc d.size := (s.recorded, #[])
  have hpre := grows_foldl_extend succ pre acc₀ hbase
  have hmid := settled_extend succ (hpre.recorded base _ hbase) hlive hcb htc
  have hpost := grows_foldl_extend succ post _
    ((addsFrom_extend succ (hpre.recorded base _ hbase) p).grows.recorded base _
      (hpre.recorded base _ hbase))
  have hend := hmid.grows hpost
  rw [← List.foldl_cons, ← List.foldl_append, ← hsplit, Array.foldl_toList] at hend
  rcases hend with hdom | hfull
  · exact hdom
  · exact absurd hfull (Nat.not_le_of_lt hroom)

end Settle

/-! ### Rounds -/

/-- The rounds stop at the first full frontier: the last of `k + 1` rounds runs only when
the first `k` left room. -/
theorem rounds_succ (succ : Fin d.size → List (Fin d.size × ByteSet)) (k : Nat)
    (s : Search d.size) :
    d.rounds succ (k + 1) s =
      if pathLimit ≤ (d.rounds succ k s).frontier.size then d.rounds succ k s
      else d.advance succ (d.rounds succ k s) := by
  induction k generalizing s with
  | zero => rfl
  | succ k ih =>
    by_cases hs : pathLimit ≤ s.frontier.size
    · have hstop : ∀ j, d.rounds succ j s = s := by
        intro j
        cases j with
        | zero => rfl
        | succ j => simp [rounds, hs]
      rw [hstop, hstop, if_pos hs]
    · rw [rounds, if_neg hs, ih, rounds, if_neg hs]

theorem searchPaths_succ (base : Fin d.size) {k : Nat}
    (h : (d.searchPaths base k).frontier.size < pathLimit) :
    d.searchPaths base (k + 1) =
      d.advance (d.successorClasses d.symbolClasses) (d.searchPaths base k) := by
  unfold searchPaths at h ⊢
  rw [rounds_succ, if_neg (Nat.not_le_of_lt h)]

end Automaton

end SkipAhead
