import AmplitudeTree.Proofs.Tree.Formed
import AmplitudeTree.Proofs.Tree.Insert
import AmplitudeTree.Proofs.Tree.Restrict
import AmplitudeTree.Proofs.Tree.Split

/-!
# Adding qubits to well-formed trees and removing them

Trees that are copied, grafted below hosts, cut and put together again stay well-formed.  This holds
for every tolerance below one half, also where an operation finds that it cannot go on.
-/

namespace AmplitudeTree

/-! ## Copies -/

namespace NodeStore

variable {s t : NodeStore ℝ} {id root : NodeId} {width : ℕ}

/-- The copies of nodes stand for them, if what counts as zero is the same in both stores. -/
theorem Tolerant.copy_builds (tolerant : s.Tolerant) (thresholds : t.threshold = s.threshold)
    (width : ℕ) :
    s.Builds t s.copyVisit (s.OnLevel False width)
      fun depth id => StandsFor s id (width - depth) where
  level_unique := OnLevel.unique
  grow := StandsFor.grow
  zero _ empty valid := valid.standsFor_zero empty _
  answer {depth id result u} met nonzero visited growth valid := by
    obtain ⟨leaf, rfl⟩ := s.copyVisit_folds.eq_answer visited
    have spans : u.Spans (width - depth) (s.get id).branches := by
      rw [leaf, met.eq_width nonzero leaf, Nat.sub_self]
      exact .leaf
    exact valid.push_standsFor (growth.threshold_eq.trans thresholds) spans nonzero
  descend {depth id given given' combine} met nonzero visited := by
    obtain ⟨low, high, branches, rfl, rfl, rfl⟩ := s.copyVisit_folds.eq_descend visited
    obtain ⟨below, lowLevel, highLevel⟩ := met.branches tolerant.toOrdered nonzero branches
    refine ⟨_, tolerant.children_eq branches, fun _ => lowLevel, fun _ => highLevel, ?_⟩
    intro u newLow newHigh growth valid lowStands highStands
    have spans := met.spans tolerant.toOrdered nonzero branches lowStands highStands
    rw [show width - (depth + 1) + 1 = width - depth by omega] at spans
    exact valid.push_standsFor (growth.threshold_eq.trans thresholds) spans nonzero

theorem Tolerant.copyFrom (valid : t.Tolerant) (tolerant : s.Tolerant)
    (thresholds : t.threshold = s.threshold) (onLevel : s.OnLevel False width 0 root) :
    t.Returns (StandsFor s root width) ((t.copyFrom s root).1, (t.copyFrom s root).2.state) :=
  (tolerant.copy_builds thresholds width).walkFrom onLevel (.refl t) valid

end NodeStore

namespace Tree

open NodeStore

variable {t other : Tree ℝ} {threshold : ℝ} {source base s : NodeStore ℝ}
  {start stop length level width : ℕ} {id host top low high : NodeId}

/-! ## Replacing hosts -/

theorem foldl_forms {levels : ℕ} (step : NodeId → NodeStore ℝ → NodeId × NodeStore ℝ)
    (hosts : List NodeId)
    (steps : ∀ host ∈ hosts, ∀ t, base.Extends t → t.Tolerant → t.Forms levels (step host t))
    (growth : base.Extends s) (tolerant : s.Tolerant) :
    let result := hosts.foldl
      (fun (swap, s) host =>
        let (copy, s) := step host s
        (swap.insert host copy, s)) ((∅ : Std.HashMap NodeId NodeId), s)
    base.Extends result.2 ∧ result.2.Tolerant ∧
      ∀ host ∈ hosts, result.2.Rooted levels (result.1.getD host host) := by
  obtain ⟨grown, last, replaced⟩ := foldl_exchange (fun _ t copy => t.Rooted levels copy)
    Rooted.grow step hosts (fun _ => False)
    (fun host member t extended valid =>
      have forms := steps host member t extended valid
      ⟨forms.growth, forms.tolerant, forms.holds⟩)
    growth tolerant ∅ (fun _ impossible => impossible.elim)
  exact ⟨grown, last, fun host member => replaced host (.inl member)⟩

/-- The walk that replaces hosts returns nodes over the qubits that are left then. -/
theorem replace_builds (tolerant : s.Tolerant) {swap : Std.HashMap NodeId NodeId} {root : NodeId}
    {width' : ℕ} (le : level ≤ width) (le' : level ≤ width')
    (replaced : ∀ id, s.Descends level root id → s.isZero id = false →
      s.Rooted (width' - level) (swap.getD id id)) :
    s.Builds s (replaceVisit s level swap)
      (fun depth id => s.OnLevel False width depth id ∧ depth ≤ level ∧
        (s.isZero id = false → s.Descends depth root id))
      (RootedBelow width') where
  level_unique met again := met.1.unique again.1
  grow := Rooted.grow
  zero _ _ valid := valid.rooted_zero _
  answer {depth id result t} met nonzero visited growth valid := by
    obtain ⟨onLevel, above, reached⟩ := met
    obtain ⟨rfl, rfl⟩ | ⟨elsewhere, leaf, -⟩ := (replaceVisit_folds s level swap).eq_answer visited
    · exact Forms.of_rooted valid ((replaced id (reached nonzero) nonzero).grow growth)
    · have bottom := onLevel.eq_width nonzero leaf
      omega
  descend {depth id given given' combine} met nonzero visited := by
    obtain ⟨onLevel, above, reached⟩ := met
    obtain ⟨elsewhere, low, high, branches, rfl, rfl, rfl⟩ :=
      (replaceVisit_folds s level swap).eq_descend visited
    have above := lt_of_le_of_ne above elsewhere
    obtain ⟨_, lowLevel, highLevel⟩ := onLevel.branches tolerant.toOrdered nonzero branches
    refine ⟨_, tolerant.children_eq branches,
      fun _ => ⟨lowLevel, above, fun some =>
        (reached nonzero).step ⟨low, high, branches, .inl rfl, some⟩⟩,
      fun _ => ⟨highLevel, above, fun some =>
        (reached nonzero).step ⟨low, high, branches, .inr rfl, some⟩⟩, ?_⟩
    intro t newLow newHigh _ valid lowRooted highRooted
    exact valid.join_level (above.trans_le le') _ (Rooted.toOver lowRooted)
      (Rooted.toOver highRooted)

/-- Hosts lie on their level, perhaps in a wider tree if the root is without amplitude. -/
theorem Formed.hosts (formed : t.Formed threshold) (level : ℕ) :
    ∃ width, t.width ≤ width ∧ (t.store.isZero t.root = false → width = t.width) ∧
      ∀ id ∈ t.hosts level, t.store.OnLevel False width level id ∧ t.store.isZero id = false := by
  refine onLevel_of_mem_hosts formed.tolerant.toOrdered formed.onLevel (fun branches => ?_) level
  obtain ⟨deeper, le, lowOver, highOver⟩ := formed.rooted.below branches
  have positive := Nat.le_add_left 1 deeper
  exact ⟨deeper + 1, le, ⟨positive, lowOver.regular⟩, positive, highOver.regular⟩

/-- Replacing all hosts by nodes over fewer qubits leaves a node over the remaining qubits. -/
theorem Formed.replaceHosts (formed : t.Formed threshold) (growth : t.store.Extends s)
    (valid : s.Tolerant) {swap : Std.HashMap NodeId NodeId} (le : level ≤ t.width)
    (le' : level ≤ width)
    (replaced : t.store.isZero t.root = false → ∀ host ∈ t.hosts level,
      s.Rooted (width - level) (swap.getD host host)) :
    s.Forms width (Tree.replaceHosts { t with store := s } level swap) := by
  have ordered := formed.tolerant.toOrdered
  have stored := formed.rooted.stored
  cases empty : t.store.isZero t.root with
  | true =>
      rw [replaceHosts_of_isZero ((growth.isZero_eq stored).trans empty)]
      exact .of_zero valid width
  | false =>
      have grown := formed.grow growth valid
      refine (replace_builds valid le le' fun id descends some => ?_).walkFrom
        ⟨grown.onLevel, Nat.zero_le _, fun _ => rfl⟩ (.refl s) valid
      have descends := (growth.descends_iff ordered stored).mp descends
      obtain ⟨onLevel, hostNonzero⟩ := formed.onLevel.descends ordered empty descends
      exact replaced empty id (NodeStore.mem_hosts.mpr ⟨descends, hostNonzero⟩)

/-! ## Insertion -/

theorem graft_builds (tolerant : source.Tolerant) (growth : source.Extends base) {below : ℕ}
    {tail : Option (NodeId × NodeId)} (spans : source.Spans below tail) (length : ℕ) :
    source.Builds base (graftVisit source length tail) (source.OnLevel False length)
      fun depth id => StandsFor source id (length - depth + below) where
  level_unique := OnLevel.unique
  grow := StandsFor.grow
  zero _ empty valid := valid.standsFor_zero empty _
  answer {depth id result s} met nonzero visited extended valid := by
    have grown := growth.trans extended
    obtain ⟨rfl, rfl⟩ | ⟨elsewhere, leaf, -⟩ := (graftVisit_folds source length tail).eq_answer visited
    · rw [Nat.sub_self, Nat.zero_add]
      exact valid.push_standsFor grown.threshold_eq (spans.grow grown) nonzero
    · exact absurd (met.eq_width nonzero leaf) elsewhere
  descend {depth id given given' combine} met nonzero visited := by
    obtain ⟨-, low, high, branches, rfl, rfl, rfl⟩ :=
      (graftVisit_folds source length tail).eq_descend visited
    obtain ⟨inside, lowMet, highMet⟩ := met.branches tolerant.toOrdered nonzero branches
    refine ⟨_, tolerant.children_eq branches, fun _ => lowMet, fun _ => highMet, ?_⟩
    intro s newLow newHigh extended valid lowStands highStands
    have levels : length - (depth + 1) + below + 1 = length - depth + below := by omega
    have joined := met.spans tolerant.toOrdered nonzero branches lowStands highStands
    rw [levels] at joined
    exact valid.push_standsFor (growth.trans extended).threshold_eq joined nonzero

theorem graft_forms (tolerant : source.Tolerant) (growth : source.Extends s) (valid : s.Tolerant)
    {below : ℕ} (spans : source.Spans below (source.get host).branches)
    (topNonzero : source.isZero top = false)
    (branches : (source.get top).branches = some (low, high))
    (onLevel : source.OnLevel False length 0 top) :
    s.Forms (length + below) (graft source length (source.get top) low high host s) := by
  have contract := (graft_builds tolerant growth spans length).contract
  obtain ⟨positive, lowLevel, highLevel⟩ := onLevel.branches tolerant.toOrdered topNonzero branches
  obtain ⟨lowReturns, remembered⟩ := contract.walk lowLevel ⟨.refl s, valid⟩ (Remembers.start _ s)
  unfold graft
  dsimp only
  generalize source.walk 0 (graftVisit source length (source.get host).branches) 1 low (.start s) =
    first at *
  obtain ⟨newLow, first⟩ := first
  dsimp only [Progress.start] at lowReturns
  obtain ⟨highReturns, _⟩ := contract.walk highLevel ⟨lowReturns.growth, lowReturns.tolerant⟩
    remembered
  dsimp only
  generalize source.walk 0 (graftVisit source length (source.get host).branches) 1 high first =
    second at *
  obtain ⟨newHigh, ⟨grown, finished⟩⟩ := second
  dsimp only at highReturns ⊢
  have joined := onLevel.spans tolerant.toOrdered topNonzero branches
    (lowReturns.holds.grow highReturns.growth) highReturns.holds
  rw [show length - (0 + 1) + below + 1 = length + below by omega] at joined
  exact (highReturns.tolerant.forms_push joined).after (lowReturns.growth.trans highReturns.growth)

/-- An insertion adds the qubits of the inserted tree. -/
theorem Formed.insert (formed : t.Formed threshold) (otherFormed : other.Formed threshold)
    (le : start ≤ t.width) :
    (t.insert other start).Formed threshold ∧
      (t.insert other start).width = t.width + other.width := by
  have copied := formed.tolerant.copyFrom otherFormed.tolerant
    (formed.threshold_eq.trans otherFormed.threshold_eq.symm) otherFormed.onLevel
  unfold Tree.insert
  generalize t.store.copyFrom other.store other.root = copy at *
  obtain ⟨top, store, finished⟩ := copy
  dsimp only at copied ⊢
  have grown := formed.grow copied.growth copied.tolerant
  have topOver : store.Over False other.width top := copied.holds.rooted.toOver
  split
  · exact ⟨formed_of_forms (.of_zero copied.tolerant _) grown.threshold_eq _, rfl⟩
  · next some =>
      obtain ⟨topNonzero, nonzero⟩ : store.isZero top = false ∧ store.isZero t.root = false := by
        simpa using some
      have onLevel : store.OnLevel False other.width 0 top := ⟨Nat.zero_le _, topOver.regular⟩
      split
      · next leaf =>
          have narrow : other.width = 0 := (onLevel.eq_width topNonzero leaf).symm
          exact ⟨formed_of_forms (copied.tolerant.rescale grown.rooted.toOver _ fun _ => nonzero).1
            grown.threshold_eq _, by rw [narrow]; rfl⟩
      · next low high branches =>
          obtain ⟨width, _, widths, hosts⟩ := grown.hosts start
          obtain rfl : width = t.width := widths nonzero
          obtain ⟨growth, valid, replaced⟩ := foldl_forms
            (graft store other.width (store.get top) low high)
            (Tree.hosts { t with store := store } start)
            (fun host member s extended kept => by
              obtain ⟨hostLevel, hostNonzero⟩ := hosts host member
              have hostOver := hostLevel.stands (copied.tolerant.lt_size hostNonzero)
              exact graft_forms copied.tolerant extended kept
                (hostOver.spans copied.tolerant.toOrdered hostNonzero) topNonzero branches onLevel)
            (.refl store) copied.tolerant
          rw [show other.width + (t.width - start) = t.width + other.width - start by omega]
            at replaced
          have forms := grown.replaceHosts growth valid le
            (show start ≤ t.width + other.width by omega) fun _ => replaced
          exact ⟨formed_of_forms forms (growth.threshold_eq.trans grown.threshold_eq) _, rfl⟩

/-! ## Extraction -/

/-- An extraction under way: its store is tolerant, and the subtree it has chosen
starts after the range. -/
structure Carves (source : NodeStore ℝ) (stop width : ℕ) (e : Extraction ℝ) : Prop where
  tolerant : e.part.Tolerant
  threshold_eq : e.part.threshold = source.threshold
  tail : ∀ first, e.tail = some first →
    source.OnLevel False width stop first ∧ source.isZero first = false

/-- The value stands for the node's levels of the range, and a subtree after the
range has been chosen. -/
structure Carved (source : NodeStore ℝ) (levels : ℕ) (id : NodeId) (value : Option NodeId)
    (e : Extraction ℝ) : Prop where
  copied : ∀ copy, value = some copy → StandsFor source id levels e.part copy
  chosen : ∀ copy, value = some copy → source.isZero id = false → ∃ first, e.tail = some first

theorem Carved.none {levels : ℕ} {e : Extraction ℝ} : Carved source levels id none e :=
  ⟨nofun, nofun⟩

theorem Carved.some {levels : ℕ} {copy first : NodeId} {e : Extraction ℝ}
    (copied : StandsFor source id levels e.part copy) (chosen : e.tail = some first) :
    Carved source levels id (some copy) e := by
  refine ⟨?_, ?_⟩
  · rintro _ ⟨⟩
    exact copied
  · rintro _ ⟨⟩ _
    exact ⟨first, chosen⟩

theorem Carved.continue {levels : ℕ} {value : Option NodeId} {before after : Extraction ℝ}
    (carved : Carved source levels id value before) (continues : Continues before after) :
    Carved source levels id value after where
  copied copy found := (carved.copied copy found).grow continues.part
  chosen copy found nonzero := by
    obtain ⟨first, chosen⟩ := carved.chosen copy found nonzero
    exact ⟨first, continues.tail first chosen⟩

theorem Carves.bottom {before : Extraction ℝ} (carves : Carves source stop width before)
    (onLevel : source.OnLevel False width stop id) (nonzero : source.isZero id = false) :
    let leaf := before.part.push (.leaf (source.get id).scale)
    let after : Extraction ℝ := ⟨leaf.2, Option.some (before.tail.getD id)⟩
    Continues before after ∧ Carves source stop width after ∧
      Carved source 0 id (Option.some leaf.1) after := by
  intro leaf after
  have pushed : before.part.Returns (StandsFor source id 0) leaf :=
    carves.tolerant.push_standsFor carves.threshold_eq .leaf nonzero
  refine ⟨⟨pushed.growth, fun first found => ?_⟩,
    ⟨pushed.tolerant, pushed.growth.threshold_eq.trans carves.threshold_eq, ?_⟩,
    .some pushed.holds rfl⟩
  · exact congrArg (fun tail => Option.some (tail.getD id)) found
  · rintro _ ⟨⟩
    cases chosen : before.tail with
    | none => exact ⟨onLevel, nonzero⟩
    | some first => exact carves.tail first chosen

theorem Carves.fork {depth : ℕ} {newLow newHigh : NodeId} {e : Extraction ℝ}
    (carves : Carves source stop width e) (tolerant : source.Tolerant)
    (onLevel : source.OnLevel False width depth id) (inside : depth < stop)
    (nonzero : source.isZero id = false)
    (branches : (source.get id).branches = Option.some (low, high))
    (lowCarved : Carved source (stop - (depth + 1)) low (Option.some newLow) e)
    (highCarved : Carved source (stop - (depth + 1)) high (Option.some newHigh) e) :
    let scale := if depth == start then 1 else (source.get id).scale
    let node := e.part.push ⟨scale, Option.some (newLow, newHigh)⟩
    Continues e ⟨node.2, e.tail⟩ ∧ Carves source stop width ⟨node.2, e.tail⟩ ∧
      Carved source (stop - depth) id (Option.some node.1) ⟨node.2, e.tail⟩ := by
  intro scale node
  have scaled : e.part.negligible scale = false := by
    dsimp only [scale]
    split
    · exact carves.tolerant.not_negligible_one
    · rw [← not_negligible_of_not_isZero nonzero, negligible, negligible, carves.threshold_eq]
  have spans := onLevel.spans tolerant.toOrdered nonzero branches (lowCarved.copied newLow rfl)
    (highCarved.copied newHigh rfl)
  rw [show stop - (depth + 1) + 1 = stop - depth by omega] at spans
  have forms : e.part.Forms (stop - depth) node := carves.tolerant.forms_push spans
  have chosen : ∃ first, e.tail = Option.some first := by
    obtain ⟨_, kept, _⟩ := onLevel.fork tolerant.toOrdered nonzero branches
    rcases kept with found | found
    · exact lowCarved.chosen newLow rfl (unfold_ne_zero.mp found)
    · exact highCarved.chosen newHigh rfl (unfold_ne_zero.mp found)
  obtain ⟨first, chosen⟩ := chosen
  refine ⟨⟨forms.growth, fun _ found => found⟩,
    ⟨forms.tolerant, forms.growth.threshold_eq.trans carves.threshold_eq, carves.tail⟩,
    .some ⟨forms.holds, fun _ => ?_⟩ chosen⟩
  exact (carves.tolerant.isZero_push _).trans scaled

theorem carve_contract (tolerant : source.Tolerant) (start stop width : ℕ) (le : stop ≤ width) :
    source.Contract (Option.some 0) (extractVisit source start stop)
      (fun depth id => source.OnLevel False width depth id ∧ depth ≤ stop)
      (Carves source stop width) Continues
      (fun depth id before value after => Continues before after ∧ Carves source stop width after ∧
        Carved source (stop - depth) id value after)
      (fun id value e => ∃ depth, source.OnLevel False width depth id ∧
        Carved source (stop - depth) id value e) where
  zero {depth id e} _ empty carves := by
    refine ⟨.refl _, carves, ?_, fun _ _ nonzero => absurd empty (by simp [nonzero])⟩
    rintro _ ⟨⟩
    exact carves.tolerant.standsFor_zero empty _
  answer {depth id before result} met nonzero visited carves := by
    obtain ⟨rfl, rfl⟩ | ⟨elsewhere, leaf, -⟩ :=
      (extractVisit_folds source start stop).eq_answer visited
    · rw [Nat.sub_self]
      dsimp only
      split
      · have ensured := carves.bottom met.1 nonzero
        exact ⟨ensured.1, ensured⟩
      · exact ⟨.refl _, .refl _, carves, .none⟩
    · have bottom := met.1.eq_width nonzero leaf
      have above := met.2
      omega
  descend {depth id given given' combine} met nonzero visited := by
    obtain ⟨elsewhere, low, high, branches, rfl, rfl, rfl⟩ :=
      (extractVisit_folds source start stop).eq_descend visited
    have inside := lt_of_le_of_ne met.2 elsewhere
    obtain ⟨_, lowLevel, highLevel⟩ := met.1.branches tolerant.toOrdered nonzero branches
    refine ⟨_, tolerant.children_eq branches, fun _ => ⟨lowLevel, inside⟩,
      fun _ => ⟨highLevel, inside⟩, ?_⟩
    intro before lowValue between highValue last _ _ carves lowSupplied highSupplied
    obtain ⟨lowContinues, _, lowCarved⟩ := lowSupplied
    obtain ⟨highContinues, _, highCarved⟩ := highSupplied
    have lowCarved := lowCarved.continue highContinues
    have continues := lowContinues.trans highContinues
    cases lowValue with
    | none => exact ⟨.refl _, continues, carves, .none⟩
    | some lowCopy =>
        cases highValue with
        | none => exact ⟨.refl _, continues, carves, .none⟩
        | some highCopy =>
            obtain ⟨pushed, ensured⟩ := carves.fork tolerant met.1 inside nonzero branches
              lowCarved highCarved
            exact ⟨pushed, continues.trans pushed, ensured⟩
  valid_after _ post := post.2.1
  record met _ post := ⟨_, met.1, post.2.2⟩
  keep _ continues known := by
    obtain ⟨depth, met, carved⟩ := known
    exact ⟨depth, met, carved.continue continues⟩
  reuse met nonzero carves known := by
    obtain ⟨depth, again, carved⟩ := known
    obtain rfl := met.1.unique again nonzero
    exact ⟨.refl _, carves, carved⟩

/-! ## Splitting -/

/-- A removal under way: the hosts dealt with so far have replacements, and the removed part is a
tree over the range. -/
structure Separates (source : NodeStore ℝ) (start stop width : ℕ) (dealt : NodeId → Prop)
    (r : Removal ℝ) : Prop where
  growth : source.Extends r.rest
  tolerant : r.rest.Tolerant
  part : r.part.Tolerant
  part_threshold : r.part.threshold = source.threshold
  copied : ∀ copy, r.root = some copy → r.part.Rooted (stop - start) copy
  begun : ∀ host, dealt host → ∃ copy, r.root = some copy
  replaced : ∀ host, dealt host → r.rest.Rooted (width - stop) (r.swap.getD host host)

/-- One more host is dealt with, or the store of the rest is as before. -/
theorem Separates.add {dealt : NodeId → Prop} {r : Removal ℝ}
    (separates : Separates source start stop width dealt r) (tolerant : source.Tolerant)
    (range : start < stop) (le : stop ≤ width) (onLevel : source.OnLevel False width start host)
    (nonzero : source.isZero host = false) :
    let result := removeHost source start stop r host
    if result.1 then Separates source start stop width (fun id => id = host ∨ dealt id) result.2
    else result.2.rest = r.rest := by
  obtain ⟨rest, stored, root, swap⟩ := r
  have start : Carves source stop width ⟨stored, none⟩ :=
    ⟨separates.part, separates.part_threshold, nofun⟩
  obtain ⟨continues, carves, carved⟩ := (carve_contract tolerant _ stop width le).walkFrom
    ⟨onLevel, range.le⟩ ⟨stored, none⟩ start
  dsimp only [removeHost]
  generalize source.walkFrom _ _ _ host _ = walked at *
  obtain ⟨copied, ⟨grown, tail⟩⟩ := walked
  cases copied with
  | none => exact rfl
  | some copy =>
      dsimp only at *
      split
      · have copyStands := carved.copied copy rfl
        obtain ⟨first, rfl⟩ := carved.chosen copy rfl nonzero
        obtain ⟨firstLevel, firstNonzero⟩ := carves.tail first rfl
        have below := tolerant.spans_of_onLevel firstLevel firstNonzero
        have pushed : rest.Forms (width - stop)
            (rest.push ⟨(source.get host).scale, (source.get first).branches⟩) :=
          separates.tolerant.forms_push (below.grow separates.growth)
        refine ⟨separates.growth.trans pushed.growth, pushed.tolerant, carves.tolerant,
          carves.threshold_eq, ?_, fun _ _ => ⟨_, rfl⟩, fun id known => ?_⟩
        · rintro _ ⟨⟩
          cases root with
          | none => exact copyStands.rooted
          | some old => exact (separates.copied old rfl).grow continues.part
        · dsimp only
          rw [Std.HashMap.getD_insert]
          split
          · exact pushed.holds
          · next differs =>
              have earlier : dealt id :=
                known.resolve_left fun same => differs (beq_iff_eq.mpr same.symm)
              exact (separates.replaced id earlier).grow pushed.growth
      · exact rfl

/-- Hosts are dealt with up to the first that shows that the range cannot be split off. -/
theorem Separates.addAll {hosts : List NodeId} {dealt : NodeId → Prop} {r : Removal ℝ}
    (separates : Separates source start stop width dealt r) (tolerant : source.Tolerant)
    (range : start < stop) (le : stop ≤ width)
    (onLevels : ∀ host ∈ hosts, source.OnLevel False width start host ∧
      source.isZero host = false) :
    let result := removeHosts source start stop hosts r
    if result.1 then Separates source start stop width (fun id => id ∈ hosts ∨ dealt id) result.2
    else source.Extends result.2.rest ∧ result.2.rest.Tolerant := by
  induction hosts generalizing dealt r with
  | nil => exact { separates with
      begun := fun host known => separates.begun host (known.resolve_left List.not_mem_nil)
      replaced := fun host known => separates.replaced host (known.resolve_left List.not_mem_nil) }
  | cons host hosts ih =>
      obtain ⟨onLevel, nonzero⟩ := onLevels host List.mem_cons_self
      have same : (fun id => id ∈ hosts ∨ id = host ∨ dealt id) =
          fun id => id ∈ host :: hosts ∨ dealt id :=
        funext fun id => propext (by rw [List.mem_cons, or_left_comm, or_assoc])
      have added := separates.add tolerant range le onLevel nonzero
      unfold removeHosts
      generalize removeHost source start stop r host = outcome at *
      obtain ⟨_ | _, next⟩ := outcome
      · have rest : next.rest = r.rest := added
        exact ⟨rest ▸ separates.growth, rest ▸ separates.tolerant⟩
      · have rest := ih (r := next) added fun id member => onLevels id (List.mem_cons_of_mem _ member)
        rw [same] at rest
        exact rest

/-- A tree without amplitude may have fewer qubits. -/
theorem Formed.shrink (formed : t.Formed threshold) (empty : t.store.isZero t.root = true)
    (le : width ≤ t.width) : Formed threshold { t with width := width } where
  tolerant := formed.tolerant
  threshold_eq := formed.threshold_eq
  rooted := by
    refine ⟨⟨formed.rooted.stored, ?_⟩, fun branches => ?_⟩
    · rw [unfold_of_isZero empty]
      exact Unfolding.regular_zero
    · obtain ⟨deeper, wide, stands⟩ := formed.rooted.below branches
      exact ⟨deeper, le.trans wide, stands⟩

/-- What a split does once the hosts have been dealt with leaves well-formed trees. -/
theorem Formed.splitBy (formed : t.Formed threshold) (le : start + length ≤ t.width)
    {r : Removal ℝ} (widths : t.store.isZero t.root = false → width = t.width)
    (separates : Separates t.store start (start + length) width (· ∈ t.hosts start) r) :
    (t.splitBy start length (true, r)).2.Formed threshold ∧
      ∀ part, (t.splitBy start length (true, r)).1 = some part → part.Formed threshold := by
  have grown := formed.grow separates.growth separates.tolerant
  unfold Tree.splitBy
  dsimp only
  cases found : r.root with
  | none =>
      have empty : r.rest.isZero t.root = true := by
        by_contra some
        have nonzero : t.store.isZero t.root = false := by
          rw [← separates.growth.isZero_eq formed.rooted.stored]
          exact Bool.not_eq_true _ ▸ some
        obtain ⟨host, member⟩ := exists_mem_hosts formed.tolerant.toOrdered formed.onLevel nonzero
          (show start ≤ t.width by omega)
        obtain ⟨copy, begun⟩ := separates.begun host member
        rw [found] at begun
        cases begun
      refine ⟨grown.shrink empty (Nat.sub_le _ _), ?_⟩
      rintro _ ⟨⟩
      rw [show t.threshold = threshold from formed.threshold_eq]
      exact formed_basis (formed.threshold_eq ▸ formed.tolerant.nonneg)
        (formed.threshold_eq ▸ formed.tolerant.lt_half) length 0 1
  | some root =>
      have forms := formed.replaceHosts separates.growth separates.tolerant
        (show start ≤ t.width by omega) (show start ≤ t.width - length by omega)
        fun nonzero host member => by
          have rooted := separates.replaced host member
          rwa [widths nonzero, show t.width - (start + length) = t.width - length - start by omega]
            at rooted
      refine ⟨formed_of_forms forms grown.threshold_eq _, ?_⟩
      rintro _ ⟨⟩
      have rooted := separates.copied root found
      rw [Nat.add_sub_cancel_left] at rooted
      exact ⟨separates.part, separates.part_threshold.trans formed.threshold_eq, rooted⟩

/-- A split leaves well-formed trees, also if the range cannot be split off. -/
theorem Formed.split (formed : t.Formed threshold) (le : start + length ≤ t.width) :
    (t.split start length).2.Formed threshold ∧
      ∀ part, (t.split start length).1 = some part → part.Formed threshold := by
  have nonneg : 0 ≤ threshold := formed.threshold_eq ▸ formed.tolerant.nonneg
  have small : threshold < 1 / 2 := formed.threshold_eq ▸ formed.tolerant.lt_half
  by_cases positive : length = 0
  · subst positive
    refine ⟨formed, ?_⟩
    rintro _ ⟨⟩
    rw [show t.threshold = threshold from formed.threshold_eq]
    exact formed_basis nonneg small 0 0 1
  · obtain ⟨width, deeper, widths, hosts⟩ := formed.hosts start
    have begin : Separates t.store start (start + length) width (fun _ => False)
        ⟨t.store, .empty t.threshold, none, ∅⟩ :=
      ⟨.refl _, formed.tolerant,
        .empty formed.tolerant.nonneg formed.tolerant.lt_half, rfl, nofun, nofun, nofun⟩
    have removed := begin.addAll formed.tolerant (by omega) (le.trans deeper) hosts
    rw [split_eq t positive]
    generalize removeHosts t.store start (start + length) (t.hosts start)
      ⟨t.store, .empty t.threshold, none, ∅⟩ = outcome at *
    obtain ⟨_ | _, next⟩ := outcome
    · obtain ⟨growth, tolerant⟩ := removed
      exact ⟨formed.grow growth tolerant, nofun⟩
    · have removed : Separates t.store start (start + length) width
          (fun id => id ∈ t.hosts start ∨ False) next := removed
      simp only [or_false] at removed
      exact formed.splitBy le widths removed

/-! ## Removal of known qubits -/

theorem followFrom_onLevel (tolerant : source.Tolerant) (index : BasisIndex) (levels qubit : ℕ)
    {depth : ℕ} (onLevel : source.OnLevel False width depth id) (le : depth + levels ≤ width)
    (nonzero : source.isZero id = false) (a : Amplitude ℝ) :
    source.OnLevel False width (depth + levels)
      (followFrom source index levels qubit id a).1 := by
  induction levels generalizing depth qubit id a with
  | zero => exact onLevel
  | succ levels ih =>
      have shift : depth + 1 + levels = depth + (levels + 1) := by omega
      rw [followFrom]
      split
      · exact .of_isZero le rfl
      · next child branch =>
          have childLevel : source.OnLevel False width (depth + 1) child := by
            rw [NodeStore.branch?, Option.map_eq_some_iff] at branch
            obtain ⟨⟨low, high⟩, branches, taken⟩ := branch
            obtain ⟨_, lowLevel, highLevel⟩ :=
              onLevel.branches tolerant.toOrdered nonzero branches
            rw [← taken]
            split
            · exact highLevel
            · exact lowLevel
          split
          · next empty => exact .of_isZero le empty
          · next some =>
              rw [← shift]
              exact ih (qubit + 1) childLevel (by omega) (Bool.not_eq_true _ ▸ some) _

/-- The replacement of a host decides the qubits after the range. -/
theorem restrictHost_forms (tolerant : source.Tolerant) (growth : source.Extends s)
    (valid : s.Tolerant) (onLevel : source.OnLevel False width start host)
    (nonzero : source.isZero host = false) (le : start + length ≤ width) (index : BasisIndex) :
    s.Forms (width - (start + length)) (restrictHost source length index host s) := by
  have reached := followFrom_onLevel tolerant index length 0 onLevel le nonzero 1
  unfold restrictHost
  generalize followFrom source index length 0 host 1 = result at *
  obtain ⟨last, a⟩ := result
  dsimp only at *
  split
  · exact .of_zero valid _
  · next some =>
      have spans := tolerant.spans_of_onLevel reached (Bool.not_eq_true _ ▸ some)
      exact valid.forms_push (spans.grow growth)

/-- Removing qubits with known values leaves a well-formed tree, even of no amplitude. -/
theorem Formed.restrict (formed : t.Formed threshold) (le : start + length ≤ t.width)
    (index : BasisIndex) : (t.restrict start length index).2.Formed threshold := by
  obtain ⟨width, deeper, widths, hosts⟩ := formed.hosts start
  obtain ⟨growth, valid, replaced⟩ := foldl_forms (restrictHost t.store length index)
    (t.hosts start)
    (fun host member s extended kept => restrictHost_forms formed.tolerant extended kept
      (hosts host member).1 (hosts host member).2 (le.trans deeper) index)
    (.refl _) formed.tolerant
  unfold Tree.restrict
  dsimp only
  generalize (t.hosts start).foldl _ _ = exchange at *
  obtain ⟨swap, store⟩ := exchange
  dsimp only at *
  have forms := formed.replaceHosts growth valid (show start ≤ t.width by omega)
    (show start ≤ t.width - length by omega) fun nonzero host member => by
      have rooted := replaced host member
      rwa [widths nonzero, show t.width - (start + length) = t.width - length - start by omega]
        at rooted
  generalize Tree.replaceHosts { t with store := store } start swap = replacement at *
  obtain ⟨root, last⟩ := replacement
  dsimp only
  split
  · exact formed.grow (growth.trans forms.growth) forms.tolerant
  · exact formed_of_forms forms (growth.threshold_eq.trans formed.threshold_eq) _

end Tree

end AmplitudeTree
