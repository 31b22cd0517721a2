import Mathlib.Data.Set.Card
import AmplitudeTree.Proofs.NodeStore.Walk

/-!
# Reachable nodes

The nodes that are met below a root, as long as they are not zero.  A walk finishes only such nodes,
each of them once, so a state that grows by at most one at each visit grows by at most their number.
A listing lists exactly these nodes, and `countReachable` is their number.
-/

namespace AmplitudeTree.NodeStore

variable {R σ β : Type} [Scalar R] {s : NodeStore R} {root id low high other : NodeId}

/-! ## Reachability -/

/-- A node that is not zero is met below `root` on a way over nodes that are not zero. -/
inductive Reaches (s : NodeStore R) (root : NodeId) : NodeId → Prop where
  | root (nonzero : s.isZero root = false) : Reaches s root root
  | low {id low high : NodeId} (reached : Reaches s root id)
      (found : (s.get id).branches = some (low, high)) (nonzero : s.isZero low = false) :
      Reaches s root low
  | high {id low high : NodeId} (reached : Reaches s root id)
      (found : (s.get id).branches = some (low, high)) (nonzero : s.isZero high = false) :
      Reaches s root high

namespace Reaches

theorem isZero_eq (reached : s.Reaches root id) : s.isZero id = false := by
  cases reached with
  | root nonzero => exact nonzero
  | low _ _ nonzero => exact nonzero
  | high _ _ nonzero => exact nonzero

theorem trans (first : s.Reaches root id) (second : s.Reaches id other) :
    s.Reaches root other := by
  induction second with
  | root => exact first
  | low _ found nonzero ih => exact ih.low found nonzero
  | high _ found nonzero ih => exact ih.high found nonzero

theorem start (reached : s.Reaches root id) : s.Reaches root root := by
  induction reached with
  | root nonzero => exact .root nonzero
  | low _ _ _ ih => exact ih
  | high _ _ _ ih => exact ih

theorem of_low (nonzero : s.isZero id = false) (found : (s.get id).branches = some (low, high))
    (reached : s.Reaches low other) : s.Reaches id other :=
  ((Reaches.root nonzero).low found reached.start.isZero_eq).trans reached

theorem of_high (nonzero : s.isZero id = false) (found : (s.get id).branches = some (low, high))
    (reached : s.Reaches high other) : s.Reaches id other :=
  ((Reaches.root nonzero).high found reached.start.isZero_eq).trans reached

theorem le (ordered : s.Ordered) (reached : s.Reaches root id) : id ≤ root := by
  induction reached with
  | root => exact le_refl root
  | low _ found _ ih => exact (ordered.branches_lt found).1.le.trans ih
  | high _ found _ ih => exact (ordered.branches_lt found).2.le.trans ih

end Reaches

theorem Ordered.finite_reaches (ordered : s.Ordered) (root : NodeId) :
    {id | s.Reaches root id}.Finite :=
  (Set.finite_Iic root).subset fun _ reached => reached.le ordered

/-! ## Finished nodes -/

section Walks

variable {zero : β} {visit : ℕ → NodeId → Visit σ β} {measure : σ → ℕ} {below : NodeId → Prop}
  {before between after : Progress σ β}

structure GrowsByOne (measure : σ → ℕ) (visit : ℕ → NodeId → Visit σ β) : Prop where
  answer : ∀ {depth id result}, visit depth id = .answer result →
    ∀ state, measure (result state).2 ≤ measure state + 1
  descend : ∀ {depth id given given' combine}, visit depth id = .descend given given' combine →
    ∀ low high state, measure (combine low high state).2 ≤ measure state + 1

/-- From one point of a walk to a later one, only nodes in `below` are finished, and the state grows
by at most one for each. -/
structure Accounts (measure : σ → ℕ) (below : NodeId → Prop) (before after : Progress σ β) : Prop where
  finished : ∀ id ∈ after.finished, id ∈ before.finished ∨ below id
  grown : measure after.state + before.finished.size ≤ measure before.state + after.finished.size

namespace Accounts

theorem refl (progress : Progress σ β) : Accounts measure below progress progress :=
  ⟨fun _ => .inl, le_refl _⟩

theorem trans (first : Accounts measure below before between)
    (second : Accounts measure below between after) : Accounts measure below before after where
  finished id member := by
    rcases second.finished id member with member | found
    · exact first.finished id member
    · exact .inr found
  grown := by
    have := first.grown
    have := second.grown
    omega

theorem mono {below' : NodeId → Prop} (accounts : Accounts measure below before after)
    (implies : ∀ id, below id → below' id) : Accounts measure below' before after :=
  ⟨fun id member => (accounts.finished id member).imp_right (implies id), accounts.grown⟩

theorem finish (accounts : Accounts measure below before after) {id : NodeId} (itself : below id)
    (fresh : id ∉ after.finished) {state : σ} (step : measure state ≤ measure after.state + 1)
    (value : β) : Accounts measure below before ⟨state, after.finished.insert id value⟩ where
  finished other member := by
    rcases Std.HashMap.mem_insert.mp member with same | member
    · rw [← eq_of_beq same]
      exact .inr itself
    · exact accounts.finished other member
  grown := by
    have := accounts.grown
    rw [Std.HashMap.size_insert, if_neg fresh]
    dsimp only
    omega

theorem given (value? : Option β) {walked : β × Progress σ β}
    (accounts : Accounts measure below before walked.2) :
    Accounts measure below before (match value? with
      | some value => (value, before)
      | none => walked).2 := by
  cases value? with
  | some value => exact refl before
  | none => exact accounts

end Accounts

/-- A walk finishes only nodes that it reaches, and grows with them. -/
theorem Ordered.accounts_walk (ordered : s.Ordered) (grows : GrowsByOne measure visit) (zero : β)
    (depth : ℕ) (id : NodeId) (progress : Progress σ β) :
    Accounts measure (s.Reaches id) progress (s.walk zero visit depth id progress).2 := by
  induction id using Nat.strong_induction_on generalizing depth progress with
  | _ id ih =>
      rw [walk]
      split
      · exact .refl progress
      · next nonempty =>
          have itself : s.Reaches id id := .root (Bool.not_eq_true _ ▸ nonempty)
          split
          · exact .refl progress
          · next missing =>
              have fresh : id ∉ progress.finished := fun member => by
                rw [Std.HashMap.mem_iff_isSome_getElem?, missing] at member
                cases member
              cases visited : visit depth id with
              | answer result =>
                  exact (Accounts.refl progress).finish itself fresh (grows.answer visited _) _
              | descend given given' combine =>
                  cases found : (s.get id).branches with
                  | none =>
                      rw [children_eq_none found]
                      exact (Accounts.refl progress).finish itself fresh (Nat.le_succ _) _
                  | some pair =>
                      obtain ⟨low, high⟩ := pair
                      obtain ⟨lowLt, highLt⟩ := ordered.branches_lt found
                      rw [ordered.children_eq found]
                      -- what the branches finish lies below `id`, so `id` is still missing then
                      have lows (progress : Progress σ β) :=
                        (ih low lowLt (depth + 1) progress).mono fun other reached => And.intro
                          (Reaches.of_low itself.isZero_eq found reached)
                          ((reached.le ordered).trans_lt lowLt)
                      have highs (progress : Progress σ β) :=
                        (ih high highLt (depth + 1) progress).mono fun other reached => And.intro
                          (Reaches.of_high itself.isZero_eq found reached)
                          ((reached.le ordered).trans_lt highLt)
                      have first := Accounts.given given (lows progress)
                      have both := first.trans (Accounts.given given' (highs _))
                      refine (both.mono fun _ => And.left).finish itself (fun member => ?_)
                        (grows.descend visited _ _ _) _
                      rcases both.finished id member with known | ⟨-, less⟩
                      · exact fresh known
                      · exact lt_irrefl id less

/-- A state that grows by at most one at each visit grows by at most the nodes reached. -/
theorem Ordered.measure_walkFrom_le (ordered : s.Ordered) (grows : GrowsByOne measure visit)
    (zero : β) (depth : ℕ) (id : NodeId) (state : σ) :
    measure (s.walkFrom zero visit depth id state).2 ≤
      measure state + {other | s.Reaches id other}.ncard := by
  have accounts := ordered.accounts_walk grows zero depth id (.start state)
  have finished : (s.walk zero visit depth id (.start state)).2.finished.size ≤
      {other | s.Reaches id other}.ncard := by
    rw [← Std.HashMap.length_keys, ← List.toFinset_card_of_nodup Std.HashMap.nodup_keys,
      ← Set.ncard_coe_finset]
    refine Set.ncard_le_ncard (fun other member => ?_) (ordered.finite_reaches id)
    rw [List.coe_toFinset, Set.mem_ofPred_eq, Std.HashMap.mem_keys] at member
    rcases accounts.finished other member with known | reached
    · simp [Progress.start] at known
    · exact reached
  have grown := accounts.grown
  simp only [Progress.start, Std.HashMap.size_empty] at grown
  change measure (s.walk zero visit depth id (.start state)).2.state ≤ _
  simp only [Progress.start] at finished ⊢
  omega

end Walks

/-! ## Listings -/

/-- No node is listed twice, and those with a number are the ones that are listed. -/
structure Listing.Simple (seen : Listing) : Prop where
  nodup : seen.order.toList.Nodup
  numbered : ∀ id, id ∈ seen.number ↔ id ∈ seen.order

theorem Listing.Simple.push {seen : Listing} (simple : seen.Simple) {id : NodeId}
    (fresh : id ∉ seen.order) :
    Listing.Simple ⟨seen.order.push id, seen.number.insert id seen.order.size⟩ where
  nodup := by
    rw [Array.toList_push, List.nodup_append]
    refine ⟨simple.nodup, List.nodup_singleton id, fun other member last found => ?_⟩
    rintro rfl
    rw [List.mem_singleton.mp found] at member
    exact fresh (Array.mem_toList_iff.mp member)
  numbered other := by
    rw [Std.HashMap.mem_insert, Array.mem_push, simple.numbered other, beq_iff_eq, or_comm, eq_comm]

def Listed (s : NodeStore R) (seen : Listing) (id : NodeId) : Prop :=
  ∀ low high, (s.get id).branches = some (low, high) →
    (s.isZero low = false → low ∈ seen.order) ∧ (s.isZero high = false → high ∈ seen.order)

theorem Listed.mono {seen later : Listing} (listed : s.Listed seen id)
    (kept : ∀ id ∈ seen.order, id ∈ later.order) : s.Listed later id :=
  fun low high found => ⟨fun nonzero => kept low ((listed low high found).1 nonzero),
    fun nonzero => kept high ((listed low high found).2 nonzero)⟩

structure Lists (s : NodeStore R) (id : NodeId) (before after : Listing) : Prop where
  simple : after.Simple
  kept : ∀ other ∈ before.order, other ∈ after.order
  itself : s.isZero id = false → id ∈ after.order
  added : ∀ other ∈ after.order, other ∈ before.order ∨ s.Reaches id other ∧ s.Listed after other

theorem Ordered.lists_list (ordered : s.Ordered) (id : NodeId) {seen : Listing}
    (simple : seen.Simple) : s.Lists id seen (s.list id seen) := by
  induction id using Nat.strong_induction_on generalizing seen with
  | _ id ih =>
      rw [list]
      split
      · next done =>
          refine ⟨simple, fun _ member => member, fun nonzero => ?_, fun _ => .inl⟩
          rw [nonzero, Bool.false_or, Std.HashMap.contains_iff_mem, simple.numbered] at done
          exact done
      · next open_ =>
          rw [Bool.not_eq_true, Bool.or_eq_false_iff] at open_
          obtain ⟨nonzero, missing⟩ := open_
          have fresh : id ∉ seen.order := fun member => by
            rw [← simple.numbered, ← Std.HashMap.contains_iff_mem, missing] at member
            cases member
          have pushed := simple.push fresh
          have first : ∀ other ∈ seen.order, other ∈ seen.order.push id :=
            fun other member => Array.mem_push.mpr (.inl member)
          cases found : (s.get id).branches with
          | none =>
              rw [children_eq_none found]
              refine ⟨pushed, first, fun _ => Array.mem_push_self, fun other member => ?_⟩
              rcases Array.mem_push.mp member with member | rfl
              · exact .inl member
              · refine .inr ⟨.root nonzero, fun low high branches => ?_⟩
                rw [found] at branches
                cases branches
          | some pair =>
              obtain ⟨low, high⟩ := pair
              obtain ⟨lowLt, highLt⟩ := ordered.branches_lt found
              rw [ordered.children_eq found]
              have lows := ih low lowLt pushed
              have highs := ih high highLt lows.simple
              have later (other : NodeId) (member : other ∈ seen.order.push id) :=
                highs.kept other (lows.kept other member)
              refine ⟨highs.simple, fun other member => later other (first other member),
                fun _ => later id Array.mem_push_self, fun other member => ?_⟩
              rcases highs.added other member with member | ⟨reached, listed⟩
              · rcases lows.added other member with member | ⟨reached, listed⟩
                · rcases Array.mem_push.mp member with member | rfl
                  · exact .inl member
                  · refine .inr ⟨.root nonzero, fun low' high' branches => ?_⟩
                    rw [found] at branches
                    cases branches
                    exact ⟨fun some => highs.kept low (lows.itself some), highs.itself⟩
                · exact .inr ⟨.of_low nonzero found reached, listed.mono highs.kept⟩
              · exact .inr ⟨.of_high nonzero found reached, listed⟩

/-- The number of nodes that are counted is that of the nodes reached. -/
theorem Ordered.countReachable_eq (ordered : s.Ordered) (root : NodeId) :
    s.countReachable root = {id | s.Reaches root id}.ncard := by
  have none : Listing.Simple ⟨#[], ∅⟩ := ⟨List.nodup_nil, by simp⟩
  have lists := ordered.lists_list root none
  have listed (id : NodeId) : id ∈ (s.listing root).order ↔ s.Reaches root id := by
    constructor
    · intro member
      rcases lists.added id member with impossible | ⟨reached, -⟩
      · cases Array.not_mem_empty _ impossible
      · exact reached
    · intro reached
      induction reached with
      | root nonzero => exact lists.itself nonzero
      | low _ found nonzero ih =>
          rcases lists.added _ ih with impossible | ⟨-, listed⟩
          · cases Array.not_mem_empty _ impossible
          · exact (listed _ _ found).1 nonzero
      | high _ found nonzero ih =>
          rcases lists.added _ ih with impossible | ⟨-, listed⟩
          · cases Array.not_mem_empty _ impossible
          · exact (listed _ _ found).2 nonzero
  have nodup : (s.listing root).order.toList.Nodup := lists.simple.nodup
  rw [countReachable, ← Array.length_toList, ← List.toFinset_card_of_nodup nodup,
    ← Set.ncard_coe_finset]
  congr 1
  ext id
  rw [List.coe_toFinset, Set.mem_ofPred_eq, Array.mem_toList_iff]
  exact listed id

theorem Ordered.countReachable_lt_size (ordered : s.Ordered) (null : s.negligible 0 = true)
    (root : NodeId) : s.countReachable root < s.size := by
  rw [ordered.countReachable_eq]
  have inside : {id | s.Reaches root id} ⊆ Set.Ioo 0 s.size := by
    intro id reached
    have positive : 0 < id := Nat.pos_of_ne_zero fun zero => by
      have nonzero := reached.isZero_eq
      rw [zero] at nonzero
      cases nonzero
    exact ⟨positive, lt_size_of_not_isZero null reached.isZero_eq⟩
  have counted := Set.ncard_le_ncard inside (Set.finite_Ioo 0 s.size)
  rw [← Finset.coe_Ioo, Set.ncard_coe_finset, Nat.card_Ioo] at counted
  have := ordered.nonempty
  omega

end AmplitudeTree.NodeStore
