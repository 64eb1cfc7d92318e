import Rmdb.Execution.Passes
import Rmdb.Optimizer.OneRel

namespace Rmdb
open Rmdb.Tuple Planner

/-! The rows that the executors of a plan yield, as records of its tables, against the product of the tables. -/

namespace Plan

/-- A tree of joins whose right children are no joins. -/
def LeftDeep : Plan → Prop
  | .join left right _ => left.LeftDeep ∧ right.LeftDeep ∧ right.hasJoin = false
  | _ => True

section
variable {ρ : Type} (rows : String → List ρ) (holds : Condition → Tuple String ρ → Bool)

/-- What `select_from` gets to see. A join on the right is over after the first tuple of the left child. -/
def output : Plan → List (Tuple String ρ)
  | .scan p => ((rows p.tabName).map (single p.tabName)).filter fun t => p.conds.all (holds · t)
  | .join left right conds =>
    let lefts := if right.hasJoin then left.output.take 1 else left.output
    ((lefts ×ˢ right.output).map fun p => merge p.1 p.2).filter fun t => conds.all (holds · t)
  | _ => []

/-- The product of the tables, filtered by all conditions of the plan. -/
def filtered (plan : Plan) : Multiset (Tuple String ρ) :=
  (product (fun t => (rows t : Multiset ρ)) plan.tables).filter fun t => plan.conds.all (holds · t)

/-- A condition looks at the records of its own tables. -/
def Local : Prop :=
  ∀ {tables : List String} {c : Condition} {s t : Tuple String ρ}, Covers tables c → (∀ k ∈ tables, s k = t k) →
    holds c s = holds c t

variable {rows holds}

/-- A row has a record of each table of the plan and of no other. -/
theorem mem_output {plan : Plan} {t : Tuple String ρ} (member : t ∈ plan.output rows holds) :
    (∀ k, (t k).isSome ↔ k ∈ plan.tables) ∧ ∀ k r, t k = some r → r ∈ rows k := by
  induction plan generalizing t with
  | scan p =>
    obtain ⟨r, inRows, rfl⟩ := List.mem_map.mp (List.mem_filter.mp member).1
    refine ⟨fun k => ?_, fun k r' found => ?_⟩
    · by_cases same : k = p.tabName <;> simp [single, same, empty]
    · by_cases same : k = p.tabName
      · subst same
        rw [single, Function.update_self] at found
        exact Option.some.inj found ▸ inRows
      · rw [single, Function.update_of_ne same] at found
        cases found
  | join left right conds ihLeft ihRight =>
    obtain ⟨⟨s, u⟩, inPairs, rfl⟩ := List.mem_map.mp (List.mem_filter.mp member).1
    obtain ⟨inLeft, inRight⟩ := List.mem_product.mp inPairs
    have inLeft : s ∈ left.output rows holds := by
      split at inLeft
      · exact List.mem_of_mem_take inLeft
      · exact inLeft
    obtain ⟨support, own⟩ := ihLeft inLeft
    obtain ⟨support', own'⟩ := ihRight inRight
    refine ⟨fun k => ?_, fun k r found => ?_⟩
    · change ((s k).or (u k)).isSome = true ↔ _
      rw [Option.isSome_or, Bool.or_eq_true, support, support', tables_join, List.mem_append]
    · rcases Option.or_eq_some_iff.mp found with here | ⟨_, there⟩
      · exact own k r here
      · exact own' k r there
  | null => cases member
  | projection => cases member
  | sort => cases member

theorem Local.all_congr (isLocal : Local holds) {tables : List String} {conds : List Condition} {s t : Tuple String ρ}
    (covers : ∀ c ∈ conds, Covers tables c) (same : ∀ k ∈ tables, s k = t k) :
    conds.all (holds · s) = conds.all (holds · t) := by
  induction conds with
  | nil => rfl
  | cons c conds ih =>
    obtain ⟨here, covers⟩ := List.forall_mem_cons.mp covers
    rw [List.all_cons, List.all_cons, isLocal here same, ih covers]

/-- The join of two filtered products. -/
theorem filtered_join (isLocal : Local holds) {left right : Plan} {conds : List Condition}
    (placed : (join left right conds).Placed) (own : (join left right conds).ScansOwn)
    (nodup : (join left right conds).tables.Nodup) :
    ((Tuple.join (left.filtered rows holds) (right.filtered rows holds)).filter fun t => conds.all (holds · t)) =
      (join left right conds).filtered rows holds := by
  obtain ⟨placedLeft, placedRight, _⟩ := placed
  have ownLeft : left.ScansOwn := fun p found => own p (List.mem_append_left _ found)
  have ownRight : right.ScansOwn := fun p found => own p (List.mem_append_right _ found)
  rw [tables_join] at nodup
  obtain ⟨_, _, apart⟩ := List.nodup_append.mp nodup
  have split : ∀ s ∈ product (fun t => (rows t : Multiset ρ)) left.tables,
      ∀ t ∈ product (fun t => (rows t : Multiset ρ)) right.tables,
      (left.conds ++ right.conds).all (holds · (merge s t)) = true ↔
        left.conds.all (holds · s) = true ∧ right.conds.all (holds · t) = true := by
    intro s inLeft t inRight
    have onLeft : left.conds.all (holds · (merge s t)) = left.conds.all (holds · s) := by
      refine isLocal.all_congr (fun c member => conds_cover placedLeft ownLeft member) fun k known => ?_
      obtain ⟨row, found⟩ := Option.isSome_iff_exists.mp ((product_support inLeft k).mpr known)
      rw [merge, found, Option.some_or]
    have onRight : right.conds.all (holds · (merge s t)) = right.conds.all (holds · t) := by
      refine isLocal.all_congr (fun c member => conds_cover placedRight ownRight member) fun k known => ?_
      have missing : s k = none := by
        rw [← Option.not_isSome_iff_eq_none, product_support inLeft]
        exact fun inBoth => apart k inBoth k known rfl
      rw [merge, missing, Option.none_or]
    rw [List.all_append, onLeft, onRight, Bool.and_eq_true]
  unfold filtered
  rw [tables_join, product_append,
    join_filter (P := fun t => (left.conds ++ right.conds).all (holds · t) = true) _ _ split, Multiset.filter_filter]
  refine Multiset.filter_congr fun t _ => ?_
  have whole : (join left right conds).conds.all (holds · t) =
      ((left.conds ++ right.conds).all (holds · t) && conds.all (holds · t)) := List.all_append
  rw [whole, Bool.and_eq_true, and_comm]

/-- No row is made up and none comes twice; if no right child is a join, none is missing. -/
theorem output_le (isLocal : Local holds) {plan : Plan} (placed : plan.Placed) (own : plan.ScansOwn)
    (nodup : plan.tables.Nodup) : (plan.output rows holds : Multiset (Tuple String ρ)) ≤ plan.filtered rows holds ∧
      (plan.LeftDeep → (plan.output rows holds : Multiset (Tuple String ρ)) = plan.filtered rows holds) := by
  induction plan with
  | scan p =>
    have same : ((Plan.scan p).output rows holds : Multiset (Tuple String ρ)) = (Plan.scan p).filtered rows holds := by
      rw [filtered, tables_scan, product_singleton, output, coe_filter]
      rfl
    exact ⟨same.le, fun _ => same⟩
  | join left right conds ihLeft ihRight =>
    have placed' := placed
    have own' := own
    have nodup' := nodup
    rw [tables_join] at nodup'
    obtain ⟨nodupLeft, nodupRight, _⟩ := List.nodup_append.mp nodup'
    obtain ⟨lessLeft, sameLeft⟩ := ihLeft placed.1 (fun p found => own p (List.mem_append_left _ found)) nodupLeft
    obtain ⟨lessRight, sameRight⟩ :=
      ihRight placed.2.1 (fun p found => own p (List.mem_append_right _ found)) nodupRight
    rw [← filtered_join isLocal placed own nodup]
    have pairs : ((join left right conds).output rows holds : Multiset (Tuple String ρ)) =
        (Tuple.join ↑(if right.hasJoin then (left.output rows holds).take 1 else left.output rows holds)
          ↑(right.output rows holds)).filter fun t => conds.all (holds · t) := by
      rw [output, coe_filter, coe_join]
    rw [pairs]
    constructor
    · refine Multiset.filter_le_filter _ (join_le (le_trans ?_ lessLeft) lessRight)
      split
      · exact Multiset.coe_le.mpr (List.take_sublist 1 _).subperm
      · exact le_rfl
    · rintro ⟨deepLeft, deepRight, flat⟩
      rw [if_neg (by simp [flat]), sameLeft deepLeft, sameRight deepRight]
  | null => exact placed.elim
  | projection => exact placed.elim
  | sort => exact placed.elim

/-- The conditions of a tree, those of the scans first. -/
theorem conds_perm {plan : Plan} (placed : plan.Placed) :
    plan.conds.Perm (plan.scans.flatMap (·.conds) ++ plan.joinConds) := by
  induction plan with
  | scan p => simp [Plan.conds, scans, joinConds]
  | join left right conds ihLeft ihRight =>
    have both := (ihLeft placed.1).append (ihRight placed.2.1)
    simp only [Plan.conds, scans, joinConds, List.flatMap_append]
    rw [← List.append_assoc]
    refine (both.trans ?_).append_right conds
    rw [List.append_assoc, List.append_assoc]
    refine List.Perm.append_left _ ?_
    rw [← List.append_assoc, ← List.append_assoc]
    exact List.perm_append_comm.append_right _
  | null => exact placed.elim
  | projection => exact placed.elim
  | sort => exact placed.elim

/-- The conditions as they are placed say what the conditions say. -/
theorem all_attached {conds placed : List Condition} (attached : Attached conds placed) {t : Tuple String ρ}
    (mirror : ∀ c ∈ conds, ∀ d, c.Same d → holds d t = holds c t) :
    placed.all (holds · t) = conds.all (holds · t) := by
  obtain ⟨ds, perm, each⟩ := attached
  rw [← perm.all_eq]
  clear perm
  induction each with
  | nil => rfl
  | @cons c d conds ds same _ ih =>
    obtain ⟨here, mirror⟩ := List.forall_mem_cons.mp mirror
    rw [List.all_cons, List.all_cons, here d same, ih mirror]

end

end Plan

end Rmdb
