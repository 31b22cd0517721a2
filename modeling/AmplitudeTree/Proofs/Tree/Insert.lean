import AmplitudeTree.Proofs.Tree.Hosts
import AmplitudeTree.Proofs.Unfolding.Graft

/-!
# Insertion of qubits

The replacement of a host is a graft: the inserted tree with the host below its leaves.  So the
amplitudes of the tree that results are the products of those of the two trees.
-/

namespace AmplitudeTree.Tree

open Assignment NodeStore

variable {t other : Tree ℝ} {canonical : Prop} {start length : ℕ} {source base s : NodeStore ℝ}
  {host top low high : NodeId}

theorem graftVisit_folds {R : Type} [Scalar R] (s : NodeStore R) (length : ℕ)
    (tail : Option (NodeId × NodeId)) :
    s.FoldsTo length (graftVisit s length tail) (fun id t => t.push ⟨(s.get id).scale, tail⟩)
      (fun id t => t.push (s.get id)) fun _ id _ _ low high t =>
        t.push ⟨(s.get id).scale, some (low, high)⟩ where
  bottom_eq id := by rw [graftVisit, if_pos (beq_self_eq_true length)]
  leaf_eq elsewhere leaf := by rw [graftVisit, if_neg (mt beq_iff_eq.mp elsewhere), leaf]
  fork_eq elsewhere branches := by rw [graftVisit, if_neg (mt beq_iff_eq.mp elsewhere), branches]

/-- The copies of an inserted tree's nodes are grafts. -/
theorem graft_appends (canonical : Prop) (exact : source.Exact) (growth : source.Extends base)
    (nonzero : source.isZero host = false) (length : ℕ) :
    source.Appends base (graftVisit source length (source.get host).branches)
      (source.OnLevel canonical length)
      fun _ id u => u = (source.unfold id).graft (source.unfold host) where
  level_unique := OnLevel.unique
  zero _ empty := by
    rw [unfold_of_isZero empty]
    rfl
  answer {depth id result s} met nonzero' visited extended valid := by
    have grown := growth.trans extended
    have stored := exact.lt_size nonzero
    obtain ⟨rfl, rfl⟩ | ⟨elsewhere, leaf, -⟩ :=
      (graftVisit_folds source length (source.get host).branches).eq_answer visited
    · have regular := met.regular
      rw [Nat.sub_self] at regular
      obtain ⟨c, scaled, leaf⟩ := regular.leaf_of_zero (unfold_ne_zero.mpr nonzero')
      obtain ⟨_, node⟩ := exact.of_unfold_leaf leaf
      have scale : (source.get id).scale.toComplex = c := by
        rw [node]
        rfl
      have pushed := valid.push_rescaled host (c := (source.get id).scale)
        (by rwa [scale]) ((grown.isZero_eq stored).trans nonzero)
      rw [grown.get_eq host stored] at pushed
      refine pushed.mono fun u result => ?_
      rw [result, grown.unfold_eq stored, leaf, scale]
      rfl
    · exact absurd (met.eq_width nonzero' leaf) elsewhere
  descend {depth id given given' combine} met nonzero' visited := by
    obtain ⟨-, _, _, branches, rfl, rfl, rfl⟩ :=
      (graftVisit_folds source length (source.get host).branches).eq_descend visited
    obtain ⟨_, lowMet, highMet⟩ := met.branches exact.toOrdered nonzero' branches
    refine ⟨_, exact.children_eq branches, fun _ => lowMet, fun _ => highMet, ?_⟩
    intro s newLow newHigh _ valid lowCopied highCopied
    rw [exact.unfold_of_branches nonzero' branches, Unfolding.graft, ← lowCopied.2, ← highCopied.2]
    exact valid.push_fork (met.scale_ne_zero nonzero') lowCopied.1 highCopied.1

/-- The replacement of a host is the inserted tree with the host below its leaves. -/
theorem graft_yields (exact : source.Exact) (growth : source.Extends s) (valid : s.Exact)
    (hostNonzero : source.isZero host = false) (topNonzero : source.isZero top = false)
    (branches : (source.get top).branches = some (low, high))
    (onLevel : source.OnLevel canonical length 0 top) :
    s.Yields (graft source length (source.get top) low high host s) fun u =>
      u = ((source.unfold top).graft (source.unfold host)).withScale
        ((source.get host).scale * (source.get top).scale).toComplex := by
  have contract := (graft_appends canonical exact growth hostNonzero length).contract
  obtain ⟨_, lowLevel, highLevel⟩ := onLevel.branches exact.toOrdered topNonzero branches
  obtain ⟨lowYields, remembered⟩ := contract.walk lowLevel
    ⟨.refl s, valid⟩ (Remembers.start _ s)
  unfold graft
  dsimp only
  generalize source.walk 0 (graftVisit source length (source.get host).branches) 1 low (.start s) =
    first at *
  obtain ⟨newLow, first⟩ := first
  dsimp only [Progress.start] at lowYields
  obtain ⟨highYields, _⟩ := contract.walk highLevel ⟨lowYields.growth, lowYields.exact⟩ remembered
  dsimp only
  generalize source.walk 0 (graftVisit source length (source.get host).branches) 1 high first =
    second at *
  obtain ⟨newHigh, ⟨grown, finished⟩⟩ := second
  dsimp only at highYields ⊢
  have hostScaled : (source.get host).scale.toComplex ≠ 0 :=
    fun found => absurd (exact.isZero_iff.mpr (.inr found)) (by simp [hostNonzero])
  have scaled : ((source.get host).scale * (source.get top).scale).toComplex ≠ 0 := by
    rw [Amplitude.toComplex_mul]
    exact mul_ne_zero hostScaled (onLevel.scale_ne_zero topNonzero)
  refine ((highYields.exact.push_fork scaled (highYields.lt_size lowYields.stored)
    highYields.stored).after (lowYields.growth.trans highYields.growth)).mono fun u result => ?_
  rw [result, highYields.unfold_eq lowYields.stored, lowYields.holds, highYields.holds,
    exact.unfold_of_branches topNonzero branches]
  rfl

noncomputable def insertedReading (start length : ℕ) (inserted : Assignment → ℂ) :
    Rereading start where
  before := dropped start length
  after bits := bits
  beforeFactor bits := inserted (taken start length bits)
  afterFactor _ := 1
  before_eq := Rereading.dropped_eq start length
  after_eq := Rereading.plain_eq start

theorem insertedReading_matches {inserted : Assignment → ℂ} {depth : ℕ} {u v : Unfolding} :
    (insertedReading start length inserted).Matches depth u v ↔ ∀ bits,
      v.amplitude depth bits = inserted (taken start length bits) *
        u.amplitude depth (dropped start length bits) := by
  refine forall_congr' fun bits => ?_
  rw [eq_comm (a := v.amplitude depth bits)]
  simp [insertedReading]

/-- A graft has the amplitudes of the inserted tree and of the host. -/
theorem graft_matches (exact : source.Exact) (onLevel : source.OnLevel canonical length 0 top)
    (topNonzero : source.isZero top = false) (hostNonzero : source.isZero host = false) :
    (insertedReading start length ((source.unfold top).amplitude 0)).Matches start
      (source.unfold host)
      (((source.unfold top).graft (source.unfold host)).withScale
        ((source.get host).scale * (source.get top).scale).toComplex) := by
  have regular : (source.unfold top).Regular canonical length := onLevel.regular
  have scaled : ((source.get host).scale * (source.get top).scale).toComplex ≠ 0 := by
    rw [Amplitude.toComplex_mul]
    exact mul_ne_zero (exact.scale_ne_zero hostNonzero) (exact.scale_ne_zero topNonzero)
  rw [insertedReading_matches]
  intro bits
  rw [← Unfolding.graft_withScale, (regular.withScale scaled).amplitude_graft,
    Unfolding.amplitude_withScale, Amplitude.toComplex_mul, scale_of_not_isZero hostNonzero,
    scale_of_not_isZero topNonzero, regular.amplitude_taken, Unfolding.amplitude_dropped,
    Unfolding.amplitude_eq_scale_mul (source.unfold top),
    Unfolding.amplitude_eq_scale_mul (source.unfold host)]
  ring

/-! ## Insertion -/

/-- Replacing the hosts by grafts inserts a stored tree. -/
theorem Sound.graft_hosts (sound : t.Sound canonical) (nonzero : t.store.isZero t.root = false)
    (topNonzero : t.store.isZero top = false)
    (branches : (t.store.get top).branches = some (low, high))
    (onLevel : t.store.OnLevel canonical length 0 top) (le : start ≤ t.width) :
    let result := (t.hosts start).foldl
      (fun (swap, s) host =>
        let (copy, s) := graft t.store length (t.store.get top) low high host s
        (swap.insert host copy, s)) ((∅ : Std.HashMap NodeId NodeId), t.store)
    result.2.Yields (Tree.replaceHosts { t with store := result.2 } start result.1) fun v =>
      v.Carries canonical 0 (t.width + length) fun bits =>
        t.state (dropped start length bits) *
          (t.store.unfold top).amplitude 0 (taken start length bits) := by
  intro result
  have exact := sound.exact
  let reading := insertedReading start length ((t.store.unfold top).amplitude 0)
  obtain ⟨width, _, widths, hosts⟩ := sound.hosts start
  obtain rfl := widths nonzero
  obtain ⟨growth, valid, replaced⟩ := foldl_swap
    (graft t.store length (t.store.get top) low high)
    (fun id v => v.Regular canonical (t.width + length - start) ∧
      reading.Matches start (t.store.unfold id) v)
    (t.hosts start)
    (fun host member s extended kept => by
      obtain ⟨hostLevel, hostNonzero⟩ := hosts host member
      refine (graft_yields exact extended kept hostNonzero topNonzero branches onLevel).mono
        fun u grafted => ?_
      subst grafted
      refine ⟨?_, graft_matches exact onLevel topNonzero hostNonzero⟩
      have levels : t.width + length - start = length + (t.width - start) := by omega
      rw [levels]
      refine (onLevel.regular.graft hostLevel.regular (unfold_ne_zero.mpr hostNonzero)).withScale ?_
      rw [Amplitude.toComplex_mul]
      exact mul_ne_zero (exact.scale_ne_zero hostNonzero) (exact.scale_ne_zero topNonzero))
    (.refl _) exact
  refine (sound.replaceHosts nonzero reading growth valid le (by omega) replaced).mono
      fun v found => ⟨Nat.zero_le _, found.1, fun bits => ?_⟩
  rw [insertedReading_matches.mp found.2 bits, mul_comm]
  rfl

/-- Inserting a tree gives the product of the two states. -/
theorem Sound.insert (sound : t.Sound canonical) (otherSound : other.Sound canonical)
    (le : start ≤ t.width) :
    (t.insert other start).Sound canonical ∧
      (t.insert other start).width = t.width + other.width ∧
      (t.insert other start).state = fun bits =>
        t.state (dropped start other.width bits) * other.state (taken start other.width bits) := by
  have copied := sound.exact.copyFrom otherSound.exact otherSound.onLevel
  unfold Tree.insert
  generalize t.store.copyFrom other.store other.root = copy at *
  obtain ⟨top, store, finished⟩ := copy
  obtain ⟨grown, kept⟩ := sound.grow copied.growth copied.exact
  have otherUnfold : store.unfold top = other.unfold := copied.holds
  have rootUnfold : store.unfold t.root = t.unfold := kept
  dsimp only at copied ⊢
  split
  · next empty =>
      have zeroYields : store.Yields (0, store) fun u =>
          u.Carries canonical 0 (t.width + other.width) fun _ => 0 :=
        .of_zero copied.exact (Unfolding.carries_zero (Nat.zero_le _) fun _ => rfl)
      obtain ⟨zeroSound, zeroState⟩ := sound_of_yields zeroYields t.reducedSize
      refine ⟨zeroSound, rfl, zeroState.trans (funext fun bits => ?_)⟩
      unfold state
      rw [← otherUnfold, ← rootUnfold]
      rcases Bool.or_eq_true .. ▸ empty with topZero | rootZero
      · rw [unfold_of_isZero topZero, Unfolding.amplitude_zero, mul_zero]
      · rw [unfold_of_isZero rootZero, Unfolding.amplitude_zero, zero_mul]
  · next some =>
      obtain ⟨topNonzero, nonzero⟩ : store.isZero top = false ∧ store.isZero t.root = false := by
        simpa using some
      have onLevel : store.OnLevel canonical other.width 0 top :=
        ⟨Nat.zero_le _, copied.holds ▸ otherSound.regular⟩
      split
      · next leaf =>
          have width : other.width = 0 := (onLevel.eq_width topNonzero leaf).symm
          have yields := copied.exact.rescale t.root ((store.get t.root).scale * (store.get top).scale)
            fun empty => absurd empty (by simp [nonzero])
          have scaled := yields.mono fun u result =>
            show u.Carries canonical 0 t.width fun bits => t.state bits * other.unfold.scale by
              rw [result, rootUnfold, Amplitude.toComplex_mul, scale_of_not_isZero nonzero,
                scale_of_not_isZero topNonzero, rootUnfold, otherUnfold, mul_comm]
              refine ⟨Nat.zero_le _, sound.regular.rescale _, fun bits => ?_⟩
              rw [Unfolding.amplitude_rescale_mul_scale, mul_comm]
              rfl
          obtain ⟨scaledSound, scaledState⟩ := sound_of_yields scaled t.reducedSize
          refine ⟨scaledSound, by rw [width]; rfl, scaledState.trans (funext fun bits => ?_)⟩
          have outside : dropped start 0 bits = bits := funext fun q => ite_self (bits q)
          rw [width, outside, state, state, ← otherUnfold, unfold_of_leaf topNonzero leaf]
          rfl
      · next low high branches =>
          obtain ⟨graftSound, graftState⟩ := sound_of_yields
            (grown.graft_hosts nonzero topNonzero branches onLevel le)
            t.reducedSize
          refine ⟨graftSound, rfl, graftState.trans (funext fun bits => ?_)⟩
          unfold state
          rw [kept, otherUnfold]

/-- A tree is put in front of another one by a graft on the root. -/
theorem insert_front {top low high : NodeId} {store : NodeStore ℝ}
    {finished : Std.HashMap NodeId NodeId}
    (copied : t.store.copyFrom other.store other.root = (top, ⟨store, finished⟩))
    (topNonzero : store.isZero top = false) (nonzero : store.isZero t.root = false)
    (branches : (store.get top).branches = some (low, high)) {root : NodeId} {grown : NodeStore ℝ}
    (grafted : graft store other.width (store.get top) low high t.root store = (root, grown))
    (kept : grown.isZero t.root = false) :
    t.insert other 0 =
      { t with store := grown, root := root, width := t.width + other.width } := by
  have hosts : Tree.hosts { t with store := store } 0 = [t.root] :=
    List.filter_cons_of_pos (by rw [nonzero]; rfl)
  unfold Tree.insert
  rw [copied]
  dsimp only
  rw [topNonzero, nonzero, if_neg (by decide), branches]
  dsimp only
  rw [hosts, List.foldl_cons, List.foldl_nil, grafted]
  dsimp only
  have walked := walkFrom_of_answer grown (0 : NodeId) kept
    ((replaceVisit_folds grown 0 ((∅ : Std.HashMap NodeId NodeId).insert t.root root)).bottom_eq
      t.root) grown
  rw [replaceHosts, walked, Std.HashMap.getD_insert_self]

/-- A graft of two branches that are zero in the store appends a node over two zero branches. -/
theorem graft_of_isZero {s : NodeStore ℝ} {low high : NodeId} (lowEmpty : s.isZero low = true)
    (highEmpty : s.isZero high = true) (length : ℕ) (inserted : Node ℝ) (host : NodeId) :
    graft s length inserted low high host s =
      s.push ⟨(s.get host).scale * inserted.scale, some (0, 0)⟩ := by
  rw [graft]
  dsimp only
  rw [walk_of_isZero lowEmpty, walk_of_isZero highEmpty]
  rfl

end AmplitudeTree.Tree
