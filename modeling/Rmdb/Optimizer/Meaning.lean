import Rmdb.Kit.Tuples
import Rmdb.Optimizer.Plan

namespace Rmdb
open Rmdb.Tuple

theorem CompOp.compare_swap {V : Type} [LinearOrder V] (op : CompOp) (a b : V) :
    (swapOp op).compare b a = op.compare a b := by
  cases op <;> simp [swapOp, CompOp.compare, eq_comm]

/-- The columns of a row by name. -/
abbrev Row (V : Type) := String → Option V

section
variable {V : Type} [LinearOrder V] (rows : String → Multiset (Row V)) (lit : Value → V)

def colValue (t : Tuple String (Row V)) (col : TabCol) : Option V := (t col.tabName).bind fun row => row col.colName

/-- A condition on a row of a join. -/
def Condition.holds (c : Condition) (t : Tuple String (Row V)) : Bool :=
  match colValue t c.lhsCol, if c.isRhsVal then some (lit c.rhsVal) else colValue t c.rhsCol with
  | some a, some b => c.op.compare a b
  | _, _ => false

def holdAll (conds : List Condition) (t : Tuple String (Row V)) : Bool := conds.all fun c => c.holds lit t

/-- What a plan computes from the contents of the tables, as a bag of rows. -/
def Plan.denote : Plan → Multiset (Tuple String (Row V))
  | .null => 0
  | .scan p => (table rows p.tabName).filter fun t => holdAll lit p.conds t
  | .join left right conds => (Tuple.join left.denote right.denote).filter fun t => holdAll lit conds t
  | .projection subplan selCols =>
    subplan.denote.map fun t tabName => (t tabName).map fun row colName =>
      if ⟨tabName, colName⟩ ∈ selCols then row colName else none
  | .sort subplan _ _ => subplan.denote

end

namespace Plan

/-- The leaves of a join tree. -/
def scans : Plan → List ScanPlan
  | .null => []
  | .scan p => [p]
  | .join left right _ => left.scans ++ right.scans
  | .projection subplan _ => subplan.scans
  | .sort subplan _ _ => subplan.scans

def tables (plan : Plan) : List String := plan.scans.map (·.tabName)

/-- The conditions on its joins. -/
def joinConds : Plan → List Condition
  | .null => []
  | .scan _ => []
  | .join left right conds => left.joinConds ++ right.joinConds ++ conds
  | .projection subplan _ => subplan.joinConds
  | .sort subplan _ _ => subplan.joinConds

/-- A join tree in which every condition of a join has its left column on the left and
its right column on the right. -/
def Placed : Plan → Prop
  | .scan _ => True
  | .join left right conds => left.Placed ∧ right.Placed ∧
    ∀ c ∈ conds, c.isRhsVal = false ∧ c.lhsCol.tabName ∈ left.tables ∧ c.rhsCol.tabName ∈ right.tables
  | _ => False

@[simp] theorem tables_scan (p : ScanPlan) : (scan p).tables = [p.tabName] := rfl

@[simp] theorem tables_join (left right : Plan) (conds : List Condition) :
    (join left right conds).tables = left.tables ++ right.tables := by
  simp [tables, scans]

/-- The columns of a condition are those of some tables. -/
def Covers (tables : List String) (c : Condition) : Prop :=
  c.lhsCol.tabName ∈ tables ∧ (c.isRhsVal = false → c.rhsCol.tabName ∈ tables)

theorem Covers.mono {tables tables' : List String} {c : Condition} (covers : Covers tables c) (sub : tables ⊆ tables') :
    Covers tables' c :=
  ⟨sub covers.1, fun column => sub (covers.2 column)⟩

/-- The conditions of a tree: those of the scans and those of the joins. -/
def conds : Plan → List Condition
  | .scan p => p.conds
  | .join left right conds => left.conds ++ right.conds ++ conds
  | _ => []

/-- Each scan checks its own columns only. -/
def ScansOwn (plan : Plan) : Prop := ∀ p ∈ plan.scans, ∀ c ∈ p.conds, Covers [p.tabName] c

theorem conds_cover {plan : Plan} (placed : plan.Placed) (own : plan.ScansOwn) {c : Condition}
    (member : c ∈ plan.conds) :
    Covers plan.tables c := by
  induction plan with
  | scan p => exact own p (List.mem_singleton_self p) c member
  | join left right conds ihLeft ihRight =>
    obtain ⟨placedLeft, placedRight, here⟩ := placed
    rw [tables_join]
    rcases List.mem_append.mp member with below | atTop
    · rcases List.mem_append.mp below with inLeft | inRight
      · have := ihLeft placedLeft (fun p found => own p (List.mem_append_left _ found)) inLeft
        exact this.mono (List.subset_append_left _ _)
      · have := ihRight placedRight (fun p found => own p (List.mem_append_right _ found)) inRight
        exact this.mono (List.subset_append_right _ _)
    · obtain ⟨_, inLeft, inRight⟩ := here c atTop
      exact ⟨List.mem_append_left _ inLeft, fun _ => List.mem_append_right _ inRight⟩
  | null => exact placed.elim
  | projection => exact placed.elim
  | sort => exact placed.elim

theorem conds_eq_joinConds {plan : Plan} (placed : plan.Placed) (none : ∀ p ∈ plan.scans, p.conds = []) :
    plan.conds = plan.joinConds := by
  induction plan with
  | scan p => exact none p (List.mem_singleton_self p)
  | join left right conds ihLeft ihRight =>
    simp only [Plan.conds, joinConds]
    rw [ihLeft placed.1 fun p found => none p (List.mem_append_left _ found),
      ihRight placed.2.1 fun p found => none p (List.mem_append_right _ found)]
  | null => exact placed.elim
  | projection => exact placed.elim
  | sort => exact placed.elim

section
variable {V : Type} [LinearOrder V] {rows : String → Multiset (Row V)} {lit : Value → V}

theorem holdAll_append (conds conds' : List Condition) (t : Tuple String (Row V)) :
    holdAll lit (conds ++ conds') t = (holdAll lit conds t && holdAll lit conds' t) := List.all_append

/-- A condition looks at the rows of the tables it mentions only. -/
theorem holds_congr {c : Condition} {tables : List String} {s t : Tuple String (Row V)} (covers : Covers tables c)
    (same : ∀ k ∈ tables, s k = t k) : c.holds lit s = c.holds lit t := by
  unfold Condition.holds colValue
  rw [same _ covers.1]
  cases column : c.isRhsVal with
  | true => rfl
  | false => rw [same _ (covers.2 column)]

theorem holdAll_congr {conds : List Condition} {tables : List String} {s t : Tuple String (Row V)}
    (covers : ∀ c ∈ conds, Covers tables c) (same : ∀ k ∈ tables, s k = t k) :
        holdAll lit conds s = holdAll lit conds t := by
  unfold holdAll
  induction conds with
  | nil => rfl
  | cons c conds ih =>
    rw [List.all_cons, List.all_cons, holds_congr (covers c List.mem_cons_self) same,
      ih fun d member => covers d (List.mem_cons_of_mem c member)]

/-- A tree whose conditions are well placed is the product of its tables, filtered by all
its conditions. -/
theorem denote_eq {plan : Plan} (placed : plan.Placed) (own : plan.ScansOwn) (nodup : plan.tables.Nodup) :
    plan.denote rows lit = (product rows plan.tables).filter fun t => holdAll lit plan.conds t := by
  induction plan with
  | scan p =>
    rw [tables_scan, product_singleton]
    rfl
  | join left right conds ihLeft ihRight =>
    obtain ⟨placedLeft, placedRight, here⟩ := placed
    have ownLeft : left.ScansOwn := fun p found => own p (List.mem_append_left _ found)
    have ownRight : right.ScansOwn := fun p found => own p (List.mem_append_right _ found)
    rw [tables_join] at nodup
    obtain ⟨nodupLeft, nodupRight, apart⟩ := List.nodup_append.mp nodup
    rw [denote, ihLeft placedLeft ownLeft nodupLeft, ihRight placedRight ownRight nodupRight, tables_join,
      product_append]
    have split : ∀ s ∈ product rows left.tables, ∀ t ∈ product rows right.tables,
        holdAll lit (left.conds ++ right.conds) (merge s t) = true ↔
          holdAll lit left.conds s = true ∧ holdAll lit right.conds t = true := by
      intro s inLeft t inRight
      have onLeft : holdAll lit left.conds (merge s t) = holdAll lit left.conds s := by
        refine holdAll_congr (fun c member => conds_cover placedLeft ownLeft member) fun k known => ?_
        obtain ⟨row, found⟩ := Option.isSome_iff_exists.mp ((product_support inLeft k).mpr known)
        rw [merge, found, Option.some_or]
      have onRight : holdAll lit right.conds (merge s t) = holdAll lit right.conds t := by
        refine holdAll_congr (fun c member => conds_cover placedRight ownRight member) fun k known => ?_
        have missing : s k = none := by
          rw [← Option.not_isSome_iff_eq_none, product_support inLeft]
          exact fun inBoth => apart k inBoth k known rfl
        rw [merge, missing, Option.none_or]
      rw [holdAll_append, onLeft, onRight, Bool.and_eq_true]
    rw [join_filter (P := fun t => holdAll lit (left.conds ++ right.conds) t = true) _ _ split, Multiset.filter_filter]
    refine Multiset.filter_congr fun t _ => ?_
    change _ ↔ holdAll lit (left.conds ++ right.conds ++ conds) t = true
    rw [holdAll_append _ conds, Bool.and_eq_true, and_comm]
  | null => exact placed.elim
  | projection => exact placed.elim
  | sort => exact placed.elim

end

end Plan

end Rmdb
