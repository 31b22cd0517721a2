import AmplitudeTree.Proofs.NodeStore.Compare
import AmplitudeTree.Proofs.Tree.Hosts
import AmplitudeTree.Proofs.Unfolding.Graft

/-!
# Extraction of a range below one host

The nodes of a range below a host are copied into a store of their own.  This succeeds exactly if
the subtrees after the range all have one shape, and then the copy is the top of the host's
unfolding.
-/

namespace AmplitudeTree.Tree

open NodeStore

variable {source : NodeStore ℝ} {canonical : Prop} {start stop width depth : ℕ} {id host : NodeId}
  {before after e : Extraction ℝ}

/-- The two subtrees after a range that show that they do not all have one shape. -/
def Divided (levels : ℕ) (u : Unfolding) : Prop :=
  ∃ v w, u.Bottom levels v ∧ u.Bottom levels w ∧ v.withScale 1 ≠ w.withScale 1

/-- The remembered subtree is one of those after the range. -/
structure Extracting (source : NodeStore ℝ) (levels : ℕ) (host : NodeId) (e : Extraction ℝ) : Prop where
  exact : e.part.Exact
  tail : ∀ first, e.tail = some first → source.isZero first = false ∧
    (source.unfold host).Bottom levels (source.unfold first)

structure Continues (before after : Extraction ℝ) : Prop where
  part : before.part.Extends after.part
  tail : ∀ first, before.tail = some first → after.tail = some first

theorem Continues.refl (e : Extraction ℝ) : Continues e e := ⟨.refl _, fun _ found => found⟩

theorem Continues.trans {last : Extraction ℝ} (first : Continues before after)
    (second : Continues after last) : Continues before last :=
  ⟨first.part.trans second.part, fun id found => second.tail id (first.tail id found)⟩

/-- The top of a tree over the levels of a range; the scale of the first level stays behind. -/
def extracted (start stop depth : ℕ) (u : Unfolding) : Unfolding :=
  if depth = start then (u.head (stop - depth)).withScale 1 else u.head (stop - depth)

def Shaped (source : NodeStore ℝ) (levels : ℕ) (u : Unfolding) (tail : Option NodeId) : Prop :=
  ∀ w, u.Bottom levels w → ∃ first, tail = some first ∧
    w.withScale 1 = (source.unfold first).withScale 1

/-- The value is a copy of the node's levels of the range, or the subtrees
after the range differ. -/
def Extracts (source : NodeStore ℝ) (start stop : ℕ) (host : NodeId) (depth : ℕ) (id : NodeId)
    (value : Option NodeId) (e : Extraction ℝ) : Prop :=
  match value with
  | some copy => e.part.Holds copy (· = extracted start stop depth (source.unfold id)) ∧
      Shaped source (stop - depth) (source.unfold id) e.tail
  | none => Divided (stop - start) (source.unfold host)

theorem Extracts.continue {value : Option NodeId}
    (extracts : Extracts source start stop host depth id value before)
    (continues : Continues before after) : Extracts source start stop host depth id value after := by
  cases value with
  | none => exact extracts
  | some copy =>
      refine ⟨extracts.1.grow continues.part, fun w found => ?_⟩
      obtain ⟨first, remembered, shape⟩ := extracts.2 w found
      exact ⟨first, continues.tail first remembered, shape⟩

structure Extractable (source : NodeStore ℝ) (canonical : Prop) (start stop width : ℕ)
    (host : NodeId) (depth : ℕ) (id : NodeId) : Prop where
  onLevel : source.OnLevel canonical width depth id
  from_start : start ≤ depth
  to_stop : depth ≤ stop
  below : ∀ w, (source.unfold id).Bottom (stop - depth) w →
    (source.unfold host).Bottom (stop - start) w

/-- After the last level of the range the subtree is compared with the remembered one. -/
theorem extract_bottom (exact : source.Exact) (range : start < stop)
    (met : Extractable source canonical start stop width host stop id)
    (nonzero : source.isZero id = false) (extracting : Extracting source (stop - start) host before) :
    let result : Option NodeId × Extraction ℝ :=
      if before.tail.all fun first => source.sameShape first id then
        (some (before.part.push (.leaf (source.get id).scale)).1,
          ⟨(before.part.push (.leaf (source.get id).scale)).2, some (before.tail.getD id)⟩)
      else (none, before)
    Continues before result.2 ∧ Extracting source (stop - start) host result.2 ∧
      Extracts source start stop host stop id result.1 result.2 := by
  obtain ⟨part, tail⟩ := before
  have bottom {w : Unfolding} : (source.unfold id).Bottom (stop - stop) w ↔ w = source.unfold id := by
    rw [Nat.sub_self]
    exact and_iff_left (unfold_ne_zero.mpr nonzero)
  have inside := met.below _ (bottom.mpr rfl)
  have sameShape (first : NodeId) (some : source.isZero first = false) :
      source.sameShape first id = true ↔
        (source.unfold first).withScale 1 = (source.unfold id).withScale 1 := by
    rw [exact.sameShape_iff, shape_eq_iff some nonzero]
  dsimp only
  split
  · next agrees =>
      have scaled := exact.scale_ne_zero nonzero
      have leaf := extracting.exact.push_leaf scaled
      have head : extracted start stop stop (source.unfold id) =
          .leaf (source.get id).scale.toComplex := by
        rw [extracted, if_neg range.ne', Nat.sub_self, scale_of_not_isZero nonzero]
        cases unfolded : source.unfold id with
        | zero => exact absurd unfolded (unfold_ne_zero.mpr nonzero)
        | leaf => rfl
        | fork => rfl
      rw [← head] at leaf
      cases tail with
      | none =>
          refine ⟨⟨leaf.growth, fun _ impossible => by cases impossible⟩, ⟨leaf.exact, ?_⟩,
            leaf.result, fun w found => ⟨id, rfl, by rw [bottom.mp found]⟩⟩
          rintro first ⟨⟩
          exact ⟨nonzero, inside⟩
      | some first =>
          obtain ⟨some, chosen⟩ := extracting.tail first rfl
          refine ⟨⟨leaf.growth, fun _ found => found⟩, ⟨leaf.exact, extracting.tail⟩,
            leaf.result, fun w found => ⟨first, rfl, ?_⟩⟩
          rw [bottom.mp found]
          exact ((sameShape first some).mp agrees).symm
  · next differs =>
      cases tail with
      | none => exact absurd rfl differs
      | some first =>
          obtain ⟨some, chosen⟩ := extracting.tail first rfl
          exact ⟨.refl _, extracting, _, _, chosen, inside,
            fun found => differs ((sameShape first some).mpr found)⟩

/-- Above, the copies of the branches are put below a copy of the node. -/
theorem extract_fork {low high lowCopy highCopy : NodeId} (exact : source.Exact)
    (met : Extractable source canonical start stop width host depth id) (inside : depth < stop)
    (nonzero : source.isZero id = false)
    (branches : (source.get id).branches = some (low, high))
    (extracting : Extracting source (stop - start) host e)
    (lowExtracts : Extracts source start stop host (depth + 1) low (some lowCopy) e)
    (highExtracts : Extracts source start stop host (depth + 1) high (some highCopy) e) :
    let node : Node ℝ := ⟨if depth == start then 1 else (source.get id).scale, some (lowCopy, highCopy)⟩
    Continues e ⟨(e.part.push node).2, e.tail⟩ ∧
      Extracting source (stop - start) host ⟨(e.part.push node).2, e.tail⟩ ∧
      Extracts source start stop host depth id (some (e.part.push node).1)
        ⟨(e.part.push node).2, e.tail⟩ := by
  intro node
  obtain ⟨lowHolds, lowShaped⟩ := lowExtracts
  obtain ⟨highHolds, highShaped⟩ := highExtracts
  have scaled : (if depth == start then 1 else (source.get id).scale).toComplex ≠ 0 := by
    split
    · exact one_ne_zero
    · exact exact.scale_ne_zero nonzero
  have pushed := extracting.exact.push_fork scaled lowHolds.stored highHolds.stored
  have later : ¬depth + 1 = start := by
    have lower := met.from_start
    omega
  have levels : stop - depth = stop - (depth + 1) + 1 := by omega
  have unfolded := exact.unfold_of_branches nonzero branches
  refine ⟨⟨pushed.growth, fun _ found => found⟩, ⟨pushed.exact, extracting.tail⟩, ?_, ?_⟩
  · refine (pushed.mono fun u result => ?_).result
    rw [result, lowHolds.holds, highHolds.holds, extracted, extracted, extracted, if_neg later,
      unfolded, levels, Unfolding.head, if_neg later]
    by_cases top : depth = start
    · rw [if_pos top, if_pos (beq_iff_eq.mpr top)]
      rfl
    · rw [if_neg top, if_neg fun found => top (beq_iff_eq.mp found)]
  · rw [unfolded, levels]
    rintro w (found | found)
    · exact lowShaped w found
    · exact highShaped w found

/-- The nodes below a range become leaves as long as they have one shape. -/
theorem extractVisit_folds {R : Type} [Scalar R] (s : NodeStore R) (start stop : ℕ) :
    s.FoldsTo stop (extractVisit s start stop)
      (fun id e =>
        if e.tail.all fun first => s.sameShape first id then
          let pushed := e.part.push (.leaf (s.get id).scale)
          (some pushed.1, ⟨pushed.2, some (e.tail.getD id)⟩)
        else (none, e))
      (fun _ e => (none, e))
      fun depth id _ _ low high e =>
        match low, high with
        | some low, some high =>
            let pushed := e.part.push
              ⟨if depth == start then 1 else (s.get id).scale, some (low, high)⟩
            (some pushed.1, ⟨pushed.2, e.tail⟩)
        | _, _ => (none, e) where
  bottom_eq id := by rw [extractVisit, if_pos (beq_self_eq_true stop)]
  leaf_eq elsewhere leaf := by rw [extractVisit, if_neg (mt beq_iff_eq.mp elsewhere), leaf]
  fork_eq elsewhere branches := by
    rewrite [extractVisit, if_neg (mt beq_iff_eq.mp elsewhere), branches]
    rfl

/-- What the visits of an extraction ensure. -/
theorem extract_contract (exact : source.Exact) (range : start < stop) (le : stop ≤ width)
    (canonical : Prop) (host : NodeId) :
    source.Contract (some 0) (extractVisit source start stop)
      (Extractable source canonical start stop width host)
      (Extracting source (stop - start) host) Continues
      (fun depth id before value after => Continues before after ∧
        Extracting source (stop - start) host after ∧
        Extracts source start stop host depth id value after)
      (fun id value e => ∃ depth, Extractable source canonical start stop width host depth id ∧
        Extracts source start stop host depth id value e) where
  zero {depth id e} met empty extracting := by
    refine ⟨.refl _, extracting, ⟨extracting.exact.nonempty, fun _ => rfl, ?_⟩, fun w found => ?_⟩
    · rw [unfold_zero, unfold_of_isZero empty, extracted, Unfolding.head_zero]
      split <;> rfl
    · rw [unfold_of_isZero empty] at found
      exact absurd found Unfolding.not_bottom_zero
  answer {depth id before result} met nonzero visited extracting := by
    obtain ⟨rfl, rfl⟩ | ⟨elsewhere, leaf, -⟩ :=
      (extractVisit_folds source start stop).eq_answer visited
    · have ensured := extract_bottom exact range met nonzero extracting
      exact ⟨ensured.1, ensured⟩
    · have bottom := met.onLevel.eq_width nonzero leaf
      have above := met.to_stop
      omega
  descend {depth id given given' combine} met nonzero visited := by
    obtain ⟨elsewhere, low, high, branches, rfl, rfl, rfl⟩ :=
      (extractVisit_folds source start stop).eq_descend visited
    have inside := lt_of_le_of_ne met.to_stop elsewhere
    have lower := met.from_start
    have levels : stop - depth = stop - (depth + 1) + 1 := by omega
    obtain ⟨_, lowLevel, highLevel⟩ := met.onLevel.branches exact.toOrdered nonzero branches
    have below := met.below
    rw [exact.unfold_of_branches nonzero branches, levels] at below
    refine ⟨_, exact.children_eq branches,
      fun _ => ⟨lowLevel, by omega, inside, fun w found => below w (.inl found)⟩,
      fun _ => ⟨highLevel, by omega, inside, fun w found => below w (.inr found)⟩, ?_⟩
    intro before lowValue between highValue last _ _ extracting lowSupplied highSupplied
    obtain ⟨lowContinues, _, lowExtracts⟩ := lowSupplied
    obtain ⟨highContinues, _, highExtracts⟩ := highSupplied
    have lowExtracts := lowExtracts.continue highContinues
    have continues := lowContinues.trans highContinues
    cases lowValue with
    | none => exact ⟨.refl _, continues, extracting, lowExtracts⟩
    | some lowCopy =>
        cases highValue with
        | none => exact ⟨.refl _, continues, extracting, highExtracts⟩
        | some highCopy =>
            obtain ⟨pushed, ensured⟩ := extract_fork exact met inside nonzero branches
              extracting lowExtracts highExtracts
            exact ⟨pushed, continues.trans pushed, ensured⟩
  valid_after _ post := post.2.1
  record met _ post := ⟨_, met, post.2.2⟩
  keep _ continues known := by
    obtain ⟨depth, met, extracts⟩ := known
    exact ⟨depth, met, extracts.continue continues⟩
  reuse met nonzero extracting known := by
    obtain ⟨depth, again, extracts⟩ := known
    obtain rfl := met.onLevel.unique again.onLevel nonzero
    exact ⟨.refl _, extracting, extracts⟩

/-- The copy of a range below a host that starts with nothing remembered. -/
theorem extract_host (exact : source.Exact) (range : start < stop) (le : stop ≤ width)
    (onLevel : source.OnLevel canonical width start host) {part : NodeStore ℝ} (valid : part.Exact) :
    let result := source.walkFrom (some 0) (extractVisit source start stop) start host ⟨part, none⟩
    part.Extends result.2.part ∧ Extracting source (stop - start) host result.2 ∧
      Extracts source start stop host start host result.1 result.2 := by
  obtain ⟨continues, ensured⟩ := (extract_contract exact range le canonical host).walkFrom
    ⟨onLevel, le_refl _, range.le, fun _ found => found⟩ ⟨part, none⟩
    ⟨valid, fun _ impossible => by cases impossible⟩
  exact ⟨continues.part, ensured⟩

end AmplitudeTree.Tree
