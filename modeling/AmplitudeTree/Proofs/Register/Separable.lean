import AmplitudeTree.Proofs.BasisIndex
import AmplitudeTree.Proofs.Register.Reachable
import AmplitudeTree.Proofs.Tree.Probability

/-!
# Separable ranges

A range of qubits can be split off just in case the state is the product of a state of the range and
a state of the other qubits.  This holds with unitary gates waiting, although the split does not
settle them.
-/

namespace AmplitudeTree

open Assignment

namespace QubitRange

def remove (range : QubitRange) (index : BasisIndex) : BasisIndex :=
  index % 2 ^ range.start ||| (index >>> range.stop) <<< range.start

variable {range : QubitRange} {width : ℕ}

theorem testBit_read_eq_taken (range : QubitRange) (index : BasisIndex) :
    (range.read index).testBit = taken range.start range.length index.testBit := by
  funext q
  rw [testBit_read, taken]
  by_cases inside : q < range.length
  · rw [if_pos inside, decide_eq_true inside, Bool.true_and]
  · rw [if_neg inside, decide_eq_false inside, Bool.false_and]

theorem testBit_remove_eq_dropped (range : QubitRange) (index : BasisIndex) :
    (range.remove index).testBit = dropped range.start range.length index.testBit := by
  funext q
  rw [remove, Nat.testBit_or, Nat.testBit_mod_two_pow, Nat.testBit_shiftLeft,
    Nat.testBit_shiftRight, dropped, stop]
  by_cases below : q < range.start
  · rw [if_pos below, decide_eq_true below, decide_eq_false (not_le.mpr below), Bool.true_and,
      Bool.false_and, Bool.or_false]
  · rw [if_neg below, decide_eq_false below, decide_eq_true (not_lt.mp below), Bool.true_and,
      Bool.false_and, Bool.false_or]
    congr 1
    omega

end QubitRange

namespace Register

open AmplitudeTree.Action

variable {reg left part : Register ℝ} {range : QubitRange}

/-- The represented state is a product of a state of the range and a state of the other qubits. -/
def Separable (reg : Register ℝ) (range : QubitRange) : Prop :=
  ∃ first second : BasisIndex → Amplitude ℝ, ∀ index < 2 ^ reg.width,
    reg.represented index = first (range.read index) * second (range.remove index)

theorem Sound.state_congr (sound : reg.Sound) {bits other : Assignment}
    (same : ∀ q < reg.width, bits q = other q) : reg.state bits = reg.state other := by
  rw [← sound.settleAll_state]
  refine sound.settles_settleAll.sound.tree.state_congr fun q below => same q ?_
  exact below.trans_eq sound.settles_settleAll.width

theorem Parts.part_congr (parts : reg.Parts range part left) (bits other : Assignment)
    (same : ∀ q < range.length, bits q = other q) : part.state bits = part.state other :=
  parts.partSound.state_congr fun q below => same q (below.trans_eq parts.partWidth)

/-- A product of amplitudes is a product of states. -/
theorem Sound.separable_iff (sound : reg.Sound) (inside : range.stop ≤ reg.width) :
    reg.Separable range ↔ ∃ first second : Assignment → ℂ,
      reg.state = productState range.start range.length first second := by
  have le : range.start + range.length ≤ reg.width := inside
  constructor
  · rintro ⟨first, second, product⟩
    refine ⟨fun bits => (first (Nat.ofBits fun q : Fin range.length => bits q)).toComplex,
      fun bits => (second (Nat.ofBits fun q : Fin (reg.width - range.length) => bits q)).toComplex,
      funext fun bits => ?_⟩
    obtain ⟨index, bound, agree⟩ := BasisIndex.exists_testBit reg.width bits
    have read : range.read index =
        Nat.ofBits fun q : Fin range.length => taken range.start range.length bits q := by
      apply Nat.eq_of_testBit_eq
      intro q
      rw [QubitRange.testBit_read_eq_taken, taken]
      by_cases below : q < range.length
      · rw [if_pos below, Nat.testBit_ofBits_lt _ _ below, taken, if_pos below,
          agree _ (by omega)]
      · rw [if_neg below, Nat.testBit_ofBits_ge _ _ (not_lt.mp below)]
    have remove : range.remove index = Nat.ofBits fun q : Fin (reg.width - range.length) =>
        dropped range.start range.length bits q := by
      apply Nat.eq_of_testBit_eq
      intro q
      rw [QubitRange.testBit_remove_eq_dropped, dropped_apply]
      by_cases below : q < reg.width - range.length
      · rw [Nat.testBit_ofBits_lt _ _ below, dropped_apply, agree]
        unfold raised
        split <;> omega
      · rw [Nat.testBit_ofBits_ge _ _ (not_lt.mp below)]
        refine Nat.testBit_lt_two_pow (bound.trans_le (Nat.pow_le_pow_right (by decide) ?_))
        unfold raised
        split <;> omega
    rw [← sound.state_congr agree, ← sound.toComplex_represented, product index bound,
      Amplitude.toComplex_mul, productState, ← read, ← remove]
  · rintro ⟨first, second, product⟩
    refine ⟨fun value => .ofComplex (first value.testBit), fun rest => .ofComplex (second rest.testBit),
      fun index _ => Amplitude.toComplex_injective ?_⟩
    rw [sound.toComplex_represented, product, productState, Amplitude.toComplex_mul,
      Amplitude.toComplex_ofComplex, Amplitude.toComplex_ofComplex, QubitRange.testBit_read_eq_taken,
      QubitRange.testBit_remove_eq_dropped]

/-- The tree splits just in case the represented state is a product. -/
theorem Sound.split_iff_separable (sound : reg.Sound) (unitary : reg.pending.Unitary)
    (positive : 0 < reg.normSq) (inside : range.stop ≤ reg.width) :
    (∃ tree, (reg.tree.split range.start range.length).1 = some tree) ↔ reg.Separable range := by
  have slots : range.start + range.length ≤ reg.pending.width := inside.trans_eq sound.slots.symm
  rw [sound.separable_iff inside]
  constructor
  · rintro ⟨tree, parted⟩
    have parts := sound.parts sound inside
      (show reg.tree.split range.start range.length = (some tree, _) from Prod.ext parted rfl)
    exact ⟨_, _, parts.state⟩
  · rintro ⟨first, second, product⟩
    -- the inverse gates make a product of the tree's own state
    have taken := unitary.inverse_act reg.tree.state
    rw [show reg.pending.act reg.tree.state = reg.state from rfl, product,
      PendingGates.act_product (slots.trans_eq reg.pending.width_inverse.symm)] at taken
    exact sound.tree.exists_split (sound.tree.normSq_pos_iff.mp positive)
      (show range.start + range.length ≤ reg.tree.width from inside)
      fun bits => congrFun taken.symm bits

theorem Parts.represented (sound : reg.Sound) (parts : reg.Parts range part left)
    (index : BasisIndex) : reg.represented index =
      part.represented (range.read index) * left.represented (range.remove index) := by
  apply Amplitude.toComplex_injective
  rw [Amplitude.toComplex_mul, sound.toComplex_represented, parts.partSound.toComplex_represented,
    parts.leftSound.toComplex_represented, parts.state, productState, QubitRange.testBit_read_eq_taken,
    QubitRange.testBit_remove_eq_dropped]

theorem Sound.runOn_decompose (sound : reg.Sound) (inside : range.stop ≤ reg.width) :
    match (reg.tree.split range.start range.length).1 with
    | some _ => ∃ part left, (Register.decompose range).runOn reg = (.ok part, left) ∧
        reg.Parts range part left
    | none => ∃ left, (Register.decompose range).runOn reg = (.error (.notSeparable range), left) ∧
        Settles reg left := by
  have drawn := sound.withGenerator reg.generator.word.2
  rw [Register.runOn_decompose inside, runOn_decomposeInto inside]
  cases parted : reg.tree.split range.start range.length with
  | mk part? rest =>
      have parted' : reg.tree.split range.start (reg.emptied range.length).width = (part?, rest) :=
        parted
      dsimp only
      rw [parted']
      cases part? with
      | none => exact ⟨_, rfl, drawn.trans (drawn.sound.unsplit inside parted)⟩
      | some tree =>
          have parts := drawn.sound.parts (sound.emptied range.length) inside parted
          have settled := parts.settle parts.partSound.settles_afterChange
            parts.leftSound.settles_afterChange
          exact ⟨_, _, rfl, settled.partSound, settled.leftSound, settled.partWidth,
            settled.leftWidth, settled.state⟩

theorem Sound.runOn_dispose (sound : reg.Sound) (inside : range.stop ≤ reg.width) :
    match (reg.tree.split range.start range.length).1 with
    | some _ => ((Register.dispose range).runOn reg).1 = .ok ()
    | none => ∃ left, (Register.dispose range).runOn reg = (.error (.notSeparable range), left) ∧
        Settles reg left := by
  rw [Register.runOn_dispose inside]
  cases parted : reg.tree.split range.start range.length with
  | mk part? rest =>
      cases part? with
      | none => exact ⟨_, rfl, sound.unsplit inside parted⟩
      | some tree => rfl

/-- Splitting a range off, or dropping it, succeeds just in case the represented state is a product,
of which the results are the factors; otherwise the state stays as it was. -/
theorem decompose_iff_separable (reachable : Reachable reg) (unitary : reg.pending.Unitary)
    (positive : 0 < reg.normSq) (inside : range.stop ≤ reg.width) :
    ((∃ part, ((decompose range).runOn reg).1 = .ok part) ↔ reg.Separable range) ∧
      (((dispose range).runOn reg).1 = .ok () ↔ reg.Separable range) ∧
      (∀ part left, (decompose range).runOn reg = (.ok part, left) →
        part.width = range.length ∧ left.width = reg.width - range.length ∧
        ∀ index < 2 ^ reg.width, reg.represented index =
          part.represented (range.read index) * left.represented (range.remove index)) ∧
      (∀ e left, (decompose range).runOn reg = (.error e, left) ∨
          (dispose range).runOn reg = (.error e, left) →
        e = .notSeparable range ∧ left.width = reg.width ∧
        ∀ index < 2 ^ reg.width, left.represented index = reg.represented index) := by
  have sound := reachable.sound
  have splits := sound.split_iff_separable unitary positive inside
  have decomposed := sound.runOn_decompose inside
  have disposed := sound.runOn_dispose inside
  rw [← splits]
  cases parted : (reg.tree.split range.start range.length).1 with
  | some tree =>
      rw [parted] at decomposed disposed
      obtain ⟨part, left, ran, parts⟩ := decomposed
      have found : ∃ other, some tree = some other := ⟨tree, rfl⟩
      refine ⟨iff_of_true ⟨part, congrArg Prod.fst ran⟩ found, iff_of_true disposed found, ?_, ?_⟩
      · rintro part' left' run
        cases ran.symm.trans run
        exact ⟨parts.partWidth, parts.leftWidth, fun index _ => parts.represented sound index⟩
      · rintro e left' (run | run)
        · cases ran.symm.trans run
        · rw [run] at disposed
          cases disposed
  | none =>
      rw [parted] at decomposed disposed
      obtain ⟨left, ran, settles⟩ := decomposed
      obtain ⟨kept, dropped, keeps⟩ := disposed
      refine ⟨iff_of_false ?_ nofun, iff_of_false ?_ nofun, ?_, ?_⟩
      · rintro ⟨part, found⟩
        rw [ran] at found
        cases found
      · rw [dropped]
        exact nofun
      · rintro part left' run
        cases ran.symm.trans run
      · rintro e left' (run | run)
        · cases ran.symm.trans run
          exact ⟨rfl, settles.width, fun index _ => settles.represented sound index⟩
        · cases dropped.symm.trans run
          exact ⟨rfl, keeps.width, fun index _ => keeps.represented sound index⟩

theorem Sound.normSq_pos (sound : reg.Sound) {bits : Assignment} (some : reg.state bits ≠ 0) :
    0 < reg.normSq := by
  refine sound.tree.normSq_pos_iff.mpr (Bool.eq_false_iff.mpr fun empty => some ?_)
  have none : reg.tree.state = 0 := by
    unfold Tree.state
    rw [Tree.isZero_iff_unfold_eq.mp empty]
    rfl
  rw [state, none, PendingGates.act, PendingGates.actOn_zero]
  rfl

/-- The second of two fresh qubits is split off with the Hadamard gate that waits on it. -/
theorem decompose_waiting_hadamard :
    ∃ reg part : Register ℝ, create 2 0 exactConfig 0 = .ok reg ∧
      ((decompose ⟨1, 1⟩).runOn (reg.waiting .hadamard 1)).1 = .ok part := by
  obtain ⟨reg, made⟩ : ∃ reg, create 2 0 exactConfig 0 = .ok reg :=
    exists_create validate_exactConfig (by decide) rfl 0
  obtain ⟨sound, waits, width, state⟩ := sound_of_create made rfl
  have inside : 1 < reg.width := by rw [width]; decide
  obtain ⟨unitary, acts⟩ := sound.waiting_state waits Gate.hadamard_isUnitary inside
  have reachable : Reachable (reg.waiting .hadamard 1) := by
    have step := (Reachable.create rfl made).gate [] true .hadamard 1
    change Reachable ((apply .hadamard 1).runOn reg).2 at step
    rwa [runOn_apply, if_pos inside] at step
  have positive : 0 < (reg.waiting .hadamard 1).normSq := by
    refine sound.normSq_pos (show reg.state (fun _ => false) ≠ 0 from ?_)
    rw [state, Tree.basisState]
    simp
  have whole : (QubitRange.mk 1 1).stop ≤ (reg.waiting .hadamard 1).width := width.ge
  have separable : (reg.waiting .hadamard 1).Separable ⟨1, 1⟩ := by
    refine ((sound.waiting .hadamard 1).separable_iff whole).mpr
      ⟨Gate.act .hadamard 0 (Tree.basisState 0 0 1 1), Tree.basisState 0 0 1 1, ?_⟩
    have factors : Tree.basisState 0 0 2 1 =
        productState 1 1 (Tree.basisState 0 0 1 1) (Tree.basisState 0 0 1 1) := by
      funext bits
      rw [productState, Tree.basisState_succ 0 two_pos,
        Tree.basisState_succ 0 (show 0 + 1 < 2 from one_lt_two), Tree.basisState_succ 0 one_pos,
        Tree.basisState_succ 0 one_pos]
      simp only [zero_add, Nat.reduceAdd, Tree.basisState_self]
      rw [dropped_of_lt one_pos, show taken 1 1 bits 0 = bits 1 from rfl]
      cases bits 0 <;> cases bits 1 <;> simp
    rw [acts, state, factors]
    exact Gate.act_shift .hadamard one_pos
  obtain ⟨part, parted⟩ :=
    (decompose_iff_separable reachable unitary positive whole).1.mpr separable
  exact ⟨reg, part, made, parted⟩

end Register

end AmplitudeTree
