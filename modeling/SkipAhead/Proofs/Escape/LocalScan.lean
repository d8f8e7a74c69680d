import Mathlib.Data.Finset.Basic
import SkipAhead.Escape.OfState
import SkipAhead.Proofs.ByteSet.Denotation

/-!
The escape description of a state, by sets. The scan visits the bytes in ascending order,
stops collecting pairs once the scheme breaks and cuts each byte's list of second bytes
after nine; yet what it returns depends only on sets:

* the escapes `E`, the bytes that leave `q`;
* for an escape `i`, the parting bytes `D i`, on which the state `i` leads to and `q`
  itself part ways;
* the wide escapes `S`, those with more than `maxPairs` parting bytes;
* the pairs `(i, j)` with `i` an escape that is not wide and `j ∈ D i`.

The scheme breaks when the automaton calls back and an escape enters a reporting state, or
when there are more than `maxPairs` pairs; otherwise it lists the pairs in lexicographic
order with the wide escapes as singles. The offset search of the floating start sits on top
of that unchanged.

The scan is followed prefix by prefix of the bytes: `ScanInv` says what it knows after a
prefix, `ScanInv.step` that one byte keeps it.

Main statement: `escapeInfo_setwise`.
-/

namespace SkipAhead

namespace Ascending

variable {α : Type} {key : α → Nat}

theorem insert_of_forall_lt {a : α} {l : List α} (h : ∀ c ∈ l, key c < key a) :
    insert key a l = l ++ [a] := by
  induction l with
  | nil => rfl
  | cons c rest ih =>
    have hc : key c < key a := h c List.mem_cons_self
    have hlt : ¬key a < key c := by omega
    have hne : ¬key a = key c := by omega
    rw [insert, if_neg hlt, if_neg hne, ih fun x hx => h x (List.mem_cons_of_mem c hx)]
    rfl

theorem foldl_insert_of_pairwise (xs acc : List α) (h : (acc ++ xs).Pairwise (key · < key ·)) :
    xs.foldl (fun acc a => insert key a acc) acc = acc ++ xs := by
  induction xs generalizing acc with
  | nil => simp
  | cons a rest ih =>
    have hlt : ∀ c ∈ acc, key c < key a :=
      fun c hc => (List.pairwise_append.mp h).2.2 c hc a List.mem_cons_self
    rw [List.foldl_cons, insert_of_forall_lt hlt, ih]
    · simp
    · simpa using h

theorem ofList_of_pairwise {xs : List α} (h : xs.Pairwise (key · < key ·)) :
    ofList key xs = xs :=
  foldl_insert_of_pairwise xs [] (by simpa using h)

end Ascending

namespace ByteSet

/-- `o` holds exactly the bytes of `pre` that satisfy `p`. -/
def Tracks (o : ByteSet) (pre : List UInt8) (p : UInt8 → Bool) : Prop :=
  ∀ b, o.contains b = true ↔ b ∈ pre ∧ p b = true

namespace Tracks

variable {o : ByteSet} {pre : List UInt8} {p : UInt8 → Bool} {i : UInt8}

theorem nil : empty.Tracks [] p := by
  intro b
  simp

theorem append_of_false (h : o.Tracks pre p) (hi : p i = false) : o.Tracks (pre ++ [i]) p := by
  intro b
  rw [h b, List.mem_append, List.mem_singleton]
  constructor
  · exact fun ⟨hb, hp⟩ => ⟨Or.inl hb, hp⟩
  · rintro ⟨hb | rfl, hp⟩
    · exact ⟨hb, hp⟩
    · rw [hi] at hp
      contradiction

theorem insert_append (h : o.Tracks pre p) (hi : p i = true) :
    (o.insert i).Tracks (pre ++ [i]) p := by
  intro b
  rw [contains_insert, Bool.or_eq_true, h b, List.mem_append, List.mem_singleton,
    decide_eq_true_iff]
  constructor
  · rintro (rfl | ⟨hb, hp⟩)
    · exact ⟨Or.inr rfl, hi⟩
    · exact ⟨Or.inl hb, hp⟩
  · rintro ⟨hb | rfl, hp⟩
    · exact Or.inr ⟨hb, hp⟩
    · exact Or.inl rfl

theorem eq_filter (h : o.Tracks allBytes p) : o = filter p := by
  apply ext_contains
  intro b
  have hb := h b
  rw [and_iff_right (mem_allBytes b)] at hb
  rw [contains_filter]
  exact Bool.eq_iff_iff.mpr hb

end Tracks

end ByteSet

namespace Automaton

variable (d : Automaton)

/-! ### The sets -/

def isEscape (q : Fin d.size) (i : UInt8) : Bool := d.next q i != q

def escapes (q : Fin d.size) : ByteSet := ByteSet.filter (d.isEscape q)

/-- The second bytes on which the state that `i` leads to from `q` and `q` itself part ways. -/
def partingBytes (q : Fin d.size) (i : UInt8) : ByteSet :=
  ByteSet.filter fun j => d.next (d.next q i) j != d.next q j

/-- Whether `i` is an escape with more parting bytes than a scheme holds pairs. -/
def isWide (q : Fin d.size) (i : UInt8) : Bool :=
  d.isEscape q i && decide (maxPairs < (d.partingBytes q i).card)

def wideEscapes (q : Fin d.size) : ByteSet := ByteSet.filter (d.isWide q)

/-- Whether `(i, j)` is a pair of `q`: `i` is an escape that is not wide and `j` one of its
parting bytes. -/
def isPair (q : Fin d.size) (p : UInt8 × UInt8) : Bool :=
  d.isEscape q p.1 && !d.isWide q p.1 && (d.partingBytes q p.1).contains p.2

def escapePairs (q : Fin d.size) : List (UInt8 × UInt8) :=
  (ByteSet.allBytes ×ˢ ByteSet.allBytes).filter (d.isPair q)

def reportsAt (q : Fin d.size) (i : UInt8) : Bool := d.isEscape q i && d.hasReports (d.next q i)

/-- Whether the automaton calls back and some escape of `q` enters a reporting state. -/
def reportsOnEscape (q : Fin d.size) : Bool :=
  d.generatesCallbacks && ByteSet.allBytes.any (d.reportsAt q)

/-- The description of `q` from its own transitions, by sets: single-byte when it calls back
on an escape or has too many pairs, else its pairs with the wide escapes as singles. -/
def localSpec (q : Fin d.size) : EscapeInfo :=
  if d.reportsOnEscape q || decide (maxPairs < (d.escapePairs q).length) then
    .singleByte (d.escapes q)
  else ⟨d.escapes q, .doubleByte (d.escapePairs q) (d.wideEscapes q)⟩

/-- The description of `q`, by sets: the local one, unless `q` is the floating start of an
automaton that is not triggered, other than the dead state, whose local scheme is not worth
using, and the offset description has fewer escapes. -/
def escapeSpec (q : Fin d.size) (maxOffset : Nat) (scorer : Scorer) : EscapeInfo :=
  let info := d.localSpec q
  if !info.isDoubleByteOk && !d.kind.isTriggered && q == d.startFloating && q != d.dead then
    let off := d.offsetInfo q maxOffset scorer
    if off.outs.card < (d.escapes q).card then off else info
  else info

variable {d}

/-! ### Pairs -/

def pairsOf (q : Fin d.size) (i : UInt8) : List (UInt8 × UInt8) :=
  (ByteSet.allBytes.map (Prod.mk i)).filter (d.isPair q)

theorem allPairs_eq_flatMap : ByteSet.allBytes ×ˢ ByteSet.allBytes =
    ByteSet.allBytes.flatMap fun i => ByteSet.allBytes.map (Prod.mk i) := rfl

theorem escapePairs_eq_flatMap (q : Fin d.size) :
    d.escapePairs q = ByteSet.allBytes.flatMap (d.pairsOf q) := by
  rw [escapePairs, allPairs_eq_flatMap, List.filter_flatMap]
  rfl

theorem pairsOf_of_not_narrow {q : Fin d.size} {i : UInt8}
    (h : (d.isEscape q i && !d.isWide q i) = false) : d.pairsOf q i = [] := by
  rw [pairsOf, List.filter_map, List.map_eq_nil_iff, List.filter_eq_nil_iff]
  intro j _
  simp [isPair, h]

theorem length_differingBytes (q : Fin d.size) (i : UInt8) :
    (d.differingBytes q (d.next q i)).length = (d.partingBytes q i).card := by
  rw [ByteSet.card_eq_length_toList]
  congr 1
  apply List.filter_congr
  intro j _
  simp [partingBytes]

theorem pairsOf_of_narrow {q : Fin d.size} {i : UInt8}
    (h : (d.isEscape q i && !d.isWide q i) = true) :
    d.pairsOf q i = (d.differingBytes q (d.next q i)).map (Prod.mk i) := by
  rw [pairsOf, List.filter_map, differingBytes]
  congr 1
  apply List.filter_congr
  intro j _
  simp [isPair, h, partingBytes]

theorem pairwise_allPairs :
    (ByteSet.allBytes ×ˢ ByteSet.allBytes).Pairwise (pairKey · < pairKey ·) := by
  have hkey : ∀ (i j i' j' : UInt8), i < i' ∨ (i = i' ∧ j < j') →
      pairKey (i, j) < pairKey (i', j') := by
    intro i j i' j' h
    have hj := j.toNat_lt
    have hj' := j'.toNat_lt
    simp only [pairKey, UInt8.lt_iff_toNat_lt] at h ⊢
    rcases h with h | ⟨rfl, h⟩
    · omega
    · omega
  rw [allPairs_eq_flatMap, List.pairwise_flatMap]
  constructor
  · intro i _
    exact List.pairwise_map.mpr
      (ByteSet.allBytes_ascending.imp fun h => hkey _ _ _ _ (Or.inr ⟨rfl, h⟩))
  · apply ByteSet.allBytes_ascending.imp
    intro i i' hii x hx y hy
    obtain ⟨j, -, rfl⟩ := List.mem_map.mp hx
    obtain ⟨j', -, rfl⟩ := List.mem_map.mp hy
    exact hkey _ _ _ _ (Or.inl hii)

theorem pairwise_escapePairs (q : Fin d.size) :
    (d.escapePairs q).Pairwise (pairKey · < pairKey ·) :=
  pairwise_allPairs.filter _

/-! ### The scan, prefix by prefix -/

variable (d) in
/-- Whether the scan has broken after the bytes `pre`: the automaton calls back and one of
their escapes enters a reporting state, or they have more than `maxPairs` pairs. -/
def brokenAfter (q : Fin d.size) (pre : List UInt8) : Bool :=
  d.generatesCallbacks && pre.any (d.reportsAt q) ||
    decide (maxPairs < (pre.flatMap (d.pairsOf q)).length)

theorem brokenAfter_append (q : Fin d.size) (pre : List UInt8) (i : UInt8) :
    d.brokenAfter q (pre ++ [i]) =
      (d.generatesCallbacks && (pre.any (d.reportsAt q) || d.reportsAt q i) ||
        decide (maxPairs < (pre.flatMap (d.pairsOf q)).length + (d.pairsOf q i).length)) := by
  simp [brokenAfter, List.any_append, List.flatMap_append]

variable (d) in
/-- What the scan knows after the bytes `pre`: the escapes among them and whether it has
broken; while it has not, their pairs in order and their wide escapes. -/
structure ScanInv (q : Fin d.size) (pre : List UInt8) (s : EscapeScan) : Prop where
  outs : s.outs.Tracks pre (d.isEscape q)
  broken : s.broken = d.brokenAfter q pre
  pairs : s.broken = false → s.pairs = pre.flatMap (d.pairsOf q)
  single : s.broken = false → s.single.Tracks pre (d.isWide q)

theorem scanInv_nil (q : Fin d.size) : d.ScanInv q [] {} :=
  ⟨ByteSet.Tracks.nil, by simp [brokenAfter], fun _ => rfl, fun _ => ByteSet.Tracks.nil⟩

section Step

variable {q : Fin d.size} {pre : List UInt8} {s : EscapeScan} {i : UInt8}

theorem ScanInv.loop (h : d.ScanInv q pre s) (hi : d.next q i = q) :
    d.ScanInv q (pre ++ [i]) (d.scanByte q s i) := by
  have hesc : d.isEscape q i = false := by simp [isEscape, hi]
  have hwide : d.isWide q i = false := by simp [isWide, hesc]
  have hnone : d.pairsOf q i = [] := pairsOf_of_not_narrow (by simp [hesc])
  have hscan : d.scanByte q s i = s := by simp [scanByte, hi]
  rw [hscan]
  refine ⟨h.outs.append_of_false hesc, ?_, fun hb => ?_,
    fun hb => (h.single hb).append_of_false hwide⟩
  · rw [h.broken, brokenAfter_append, hnone]
    simp [brokenAfter, reportsAt, hesc]
  · rw [h.pairs hb, List.flatMap_append]
    simp [hnone]

/-- An escape into a reporting state of an automaton with callbacks, or any escape once the
scan has broken, only adds the escape. -/
theorem ScanInv.of_broken (h : d.ScanInv q pre s) (hi : d.next q i ≠ q)
    (hb : (s.broken || d.generatesCallbacks && d.hasReports (d.next q i)) = true) :
    d.ScanInv q (pre ++ [i]) (d.scanByte q s i) := by
  have hesc : d.isEscape q i = true := by simp [isEscape, hi]
  have hscan : d.scanByte q s i = { s with outs := s.outs.insert i, broken := true } := by
    simp [scanByte, hi, hb]
  rw [hscan]
  refine ⟨h.outs.insert_append hesc, ?_, (fun hf => nomatch hf), (fun hf => nomatch hf)⟩
  -- it has broken before, or breaks on this escape
  show true = _
  rw [eq_comm, brokenAfter_append]
  simp only [Bool.or_eq_true, Bool.and_eq_true, decide_eq_true_eq]
  rcases Bool.or_eq_true _ _ |>.mp hb with hold | hnew
  · rw [h.broken, brokenAfter] at hold
    simp only [Bool.or_eq_true, Bool.and_eq_true, decide_eq_true_eq] at hold
    rcases hold with ⟨hcb, hany⟩ | hlen
    · exact Or.inl ⟨hcb, Or.inl hany⟩
    · exact Or.inr (by omega)
  · obtain ⟨hcb, hrep⟩ := Bool.and_eq_true _ _ |>.mp hnew
    exact Or.inl ⟨hcb, Or.inr (by simp [reportsAt, hesc, hrep])⟩

theorem isWide_of_escape (hesc : d.isEscape q i = true) :
    d.isWide q i = decide (maxPairs < (d.differingBytes q (d.next q i)).length) := by
  rw [isWide, hesc, length_differingBytes]
  rfl

theorem ScanInv.not_lt_length_pairs (h : d.ScanInv q pre s) (hb : s.broken = false) :
    ¬maxPairs < s.pairs.length := by
  have hold : d.brokenAfter q pre = false := h.broken ▸ hb
  rw [h.pairs hb]
  intro hmany
  rw [brokenAfter, decide_eq_true hmany, Bool.or_true] at hold
  contradiction

/-- After an unbroken prefix, an escape into a state that does not call back breaks the scan
exactly when the pairs pass `maxPairs`. -/
theorem brokenAfter_append_of_live (hold : d.brokenAfter q pre = false)
    (hesc : d.isEscape q i = true)
    (hr : (d.generatesCallbacks && d.hasReports (d.next q i)) = false) :
    d.brokenAfter q (pre ++ [i]) =
      decide (maxPairs < (pre.flatMap (d.pairsOf q)).length + (d.pairsOf q i).length) := by
  -- no escape so far or now enters a reporting state of an automaton that calls back
  simp only [brokenAfter, Bool.or_eq_false_iff, Bool.and_eq_false_iff] at hold
  rw [brokenAfter_append]
  cases hg : d.generatesCallbacks
  · simp
  · have hany : pre.any (d.reportsAt q) = false := by simpa [hg] using hold.1
    have hrep : d.reportsAt q i = false := by simpa [reportsAt, hesc, hg] using hr
    simp [hany, hrep]

theorem ScanInv.of_wide (h : d.ScanInv q pre s) (hi : d.next q i ≠ q) (hb : s.broken = false)
    (hr : (d.generatesCallbacks && d.hasReports (d.next q i)) = false) (hw : d.isWide q i = true) :
    d.ScanInv q (pre ++ [i]) (d.scanByte q s i) := by
  have hesc : d.isEscape q i = true := by simp [isEscape, hi]
  have hnone : d.pairsOf q i = [] := pairsOf_of_not_narrow (by simp [hw])
  have hcut : maxPairs < ((d.differingBytes q (d.next q i)).take (maxPairs + 1)).length := by
    rw [isWide_of_escape hesc, decide_eq_true_eq] at hw
    rw [List.length_take]
    omega
  have hroom := h.not_lt_length_pairs hb
  have hscan : d.scanByte q s i =
      { s with outs := s.outs.insert i, single := s.single.insert i, broken := false } := by
    simp only [scanByte, hi, hb, hr, Bool.or_false, Bool.false_eq_true, gt_iff_lt, hcut, hroom,
      ↓reduceIte]
  rw [hscan]
  refine ⟨h.outs.insert_append hesc, ?_, fun _ => ?_, fun _ => (h.single hb).insert_append hw⟩
  · rw [brokenAfter_append_of_live (h.broken ▸ hb) hesc hr, hnone, ← h.pairs hb]
    simpa using hroom
  · rw [h.pairs hb, List.flatMap_append]
    simp [hnone]

/-- A narrow escape of an unbroken scan adds its pairs, and too many of them break the scan. -/
theorem ScanInv.of_narrow (h : d.ScanInv q pre s) (hi : d.next q i ≠ q) (hb : s.broken = false)
    (hr : (d.generatesCallbacks && d.hasReports (d.next q i)) = false) (hw : d.isWide q i = false) :
    d.ScanInv q (pre ++ [i]) (d.scanByte q s i) := by
  have hesc : d.isEscape q i = true := by simp [isEscape, hi]
  have hsome : d.pairsOf q i = (d.differingBytes q (d.next q i)).map (Prod.mk i) :=
    pairsOf_of_narrow (by simp [hesc, hw])
  have hfew : ¬maxPairs < (d.differingBytes q (d.next q i)).length := by
    rw [isWide_of_escape hesc, decide_eq_false_iff_not] at hw
    exact hw
  -- the cut after `maxPairs + 1` second bytes leaves the list whole
  have hwhole : (d.differingBytes q (d.next q i)).take (maxPairs + 1) =
      d.differingBytes q (d.next q i) :=
    List.take_of_length_le (by omega)
  have hscan : d.scanByte q s i =
      if maxPairs < (s.pairs ++ d.pairsOf q i).length then
        { s with outs := s.outs.insert i, pairs := s.pairs ++ d.pairsOf q i, broken := true }
      else
        { s with outs := s.outs.insert i, pairs := s.pairs ++ d.pairsOf q i, broken := false } := by
    simp only [scanByte, hi, hb, hr, Bool.or_false, Bool.false_eq_true, gt_iff_lt, hwhole, hfew,
      ↓reduceIte, hsome]
  have hnew := brokenAfter_append_of_live (h.broken ▸ hb) hesc hr
  rw [hscan, h.pairs hb]
  split_ifs with hmany
  · refine ⟨h.outs.insert_append hesc, ?_, (fun hf => nomatch hf), (fun hf => nomatch hf)⟩
    rw [hnew, ← List.length_append]
    simpa using hmany
  · refine ⟨h.outs.insert_append hesc, ?_, fun _ => ?_,
      fun _ => (h.single hb).append_of_false hw⟩
    · rw [hnew, ← List.length_append]
      simpa using hmany
    · rw [List.flatMap_append]
      simp

theorem ScanInv.step (h : d.ScanInv q pre s) (i : UInt8) :
    d.ScanInv q (pre ++ [i]) (d.scanByte q s i) := by
  by_cases hi : d.next q i = q
  · exact h.loop hi
  cases hb : (s.broken || d.generatesCallbacks && d.hasReports (d.next q i))
  · obtain ⟨hold, hr⟩ := Bool.or_eq_false_iff.mp hb
    cases hw : d.isWide q i
    · exact h.of_narrow hi hold hr hw
    · exact h.of_wide hi hold hr hw
  · exact h.of_broken hi hb

end Step

theorem scanInv_foldl (q : Fin d.size) (pre : List UInt8) :
    d.ScanInv q pre (pre.foldl (d.scanByte q) {}) := by
  induction pre using List.reverseRecOn with
  | nil => exact scanInv_nil q
  | append_singleton pre i ih =>
    rw [List.foldl_append, List.foldl_cons, List.foldl_nil]
    exact ih.step i

/-! ### The description -/

/-- The scan's description is the one by sets. -/
theorem localEscapeInfo_eq_localSpec (q : Fin d.size) : d.localEscapeInfo q = d.localSpec q := by
  have h := scanInv_foldl q ByteSet.allBytes
  have hbroken : (d.reportsOnEscape q || decide (maxPairs < (d.escapePairs q).length)) =
      d.brokenAfter q ByteSet.allBytes := by
    rw [reportsOnEscape, escapePairs_eq_flatMap]
    rfl
  rw [localEscapeInfo, localSpec, hbroken, ← h.broken, h.outs.eq_filter]
  cases hb : (ByteSet.allBytes.foldl (d.scanByte q) {}).broken
  · -- unbroken: the pairs are those of all escapes, at most `maxPairs` of them
    have hpairs : (ByteSet.allBytes.foldl (d.scanByte q) {}).pairs = d.escapePairs q := by
      rw [h.pairs hb, escapePairs_eq_flatMap]
    have hfew : ¬maxPairs < (d.escapePairs q).length := hpairs ▸ h.not_lt_length_pairs hb
    simp only [Bool.false_eq_true, ↓reduceIte, EscapeInfo.doubleByte, hpairs,
      Ascending.ofList_of_pairwise (pairwise_escapePairs q), gt_iff_lt, hfew,
      (h.single hb).eq_filter]
    rfl
  · rfl

@[simp] theorem outs_localSpec (q : Fin d.size) : (d.localSpec q).outs = d.escapes q := by
  unfold localSpec
  split <;> rfl

theorem length_le_of_localSpec {q : Fin d.size} {ps : List (UInt8 × UInt8)} {single : ByteSet}
    (h : (d.localSpec q).scheme = .doubleByte ps single) : ps.length ≤ maxPairs := by
  unfold localSpec at h
  split at h
  · nomatch h
  · rename_i hfew
    obtain ⟨rfl, -⟩ := Scheme.doubleByte.inj h
    simp only [Bool.or_eq_true, decide_eq_true_eq, not_or] at hfew
    exact Nat.le_of_not_lt hfew.2

theorem escapeInfo_eq_escapeSpec (q : Fin d.size) (maxOffset : Nat) (scorer : Scorer) :
    d.escapeInfo q maxOffset scorer = d.escapeSpec q maxOffset scorer := by
  simp only [escapeInfo, escapeSpec, seeksOffset, localEscapeInfo_eq_localSpec, outs_localSpec]

theorem escapeSpec_eq_or (q : Fin d.size) (maxOffset : Nat) (scorer : Scorer) :
    d.escapeSpec q maxOffset scorer = d.localSpec q ∨
      d.escapeSpec q maxOffset scorer = d.offsetInfo q maxOffset scorer := by
  dsimp only [escapeSpec]
  split
  · split
    · exact Or.inr rfl
    · exact Or.inl rfl
  · exact Or.inl rfl

/-- The escape description depends only on sets of bytes and pairs, not on the order of the
scan: it is `escapeSpec`. So a description other than an offset one never lists a byte
that loops on the state, and an unbroken one never holds more than `maxPairs` pairs. -/
theorem escapeInfo_setwise (q : Fin d.size) (maxOffset : Nat) (scorer : Scorer) :
    d.escapeInfo q maxOffset scorer = d.escapeSpec q maxOffset scorer ∧
      (∀ i, d.next q i = q → (∀ k, (d.escapeInfo q maxOffset scorer).scheme ≠ .offset k) →
        (d.escapeInfo q maxOffset scorer).outs.contains i = false) ∧
      (∀ ps single, (d.escapeInfo q maxOffset scorer).scheme = .doubleByte ps single →
        ps.length ≤ maxPairs) := by
  have heq := escapeInfo_eq_escapeSpec q maxOffset scorer
  refine ⟨heq, ?_, ?_⟩
  · intro i hi hnot
    rw [heq] at hnot ⊢
    rcases escapeSpec_eq_or q maxOffset scorer with hloc | hoff
    · rw [hloc, outs_localSpec, escapes, ByteSet.contains_filter]
      simp [isEscape, hi]
    · rw [hoff] at hnot
      exact absurd rfl (hnot _)
  · intro ps single hdouble
    rw [heq] at hdouble
    rcases escapeSpec_eq_or q maxOffset scorer with hloc | hoff
    · rw [hloc] at hdouble
      exact length_le_of_localSpec hdouble
    · rw [hoff] at hdouble
      nomatch hdouble

end Automaton

end SkipAhead
