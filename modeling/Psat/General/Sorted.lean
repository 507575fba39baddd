import Mathlib.Data.List.MinMax
import Mathlib.Data.List.Pairwise
import Mathlib.Data.List.Sort
import Psat.General.Ordered

namespace Psat.General.Sorted
open List Ordered

section
variable [LinearOrder ρ] (rank : α → ρ)

-- `ORDER BY rank`, and Python's `sort(key=rank)`.
def sortBy (items : List α) : List α := items.insertionSort fun a b => rank a ≤ rank b

theorem pairwise_sortBy (items : List α) : (sortBy rank items).Pairwise fun a b => rank a ≤ rank b := by
  exact pairwise_insertionSort _ items

theorem perm_sortBy (items : List α) : (sortBy rank items).Perm items := perm_insertionSort _ items

@[simp] theorem mem_sortBy (items : List α) (item : α) : item ∈ sortBy rank items ↔ item ∈ items :=
  (perm_sortBy rank items).mem_iff

theorem sortBy_eq (strict : ordered.Pairwise fun a b => rank a < rank b) (once : items.Nodup)
    (same : ∀ item, item ∈ items ↔ item ∈ ordered) : sortBy rank items = ordered := by
  have different : ordered.Nodup := strict.imp fun {a b} below equal => by
    subst equal
    exact lt_irrefl _ below
  have permuted : (sortBy rank items).Perm ordered :=
    (perm_sortBy rank items).trans ((perm_ext_iff_of_nodup once different).mpr same)
  apply List.Perm.eq_of_pairwise _ (pairwise_sortBy rank items) (strict.imp le_of_lt) permuted
  intro a b inside member below above
  have equal : rank a = rank b := le_antisymm below above
  have present := permuted.mem_iff.mp inside
  by_contra differs
  have apart : ordered.Pairwise fun a b => rank a ≠ rank b := strict.imp ne_of_lt
  have : Std.Symm fun a b : α => rank a ≠ rank b := ⟨fun _ _ => Ne.symm⟩
  exact apart.forall present member differs equal

theorem sortBy_strict (apart : (items.map rank).Nodup) : (sortBy rank items).Pairwise fun a b => rank a < rank b := by
  have distinct : ((sortBy rank items).map rank).Nodup := ((perm_sortBy rank items).map rank).nodup_iff.mpr apart
  rw [List.Nodup,pairwise_map] at distinct
  exact ((pairwise_sortBy rank items).and distinct).imp fun both => lt_of_le_of_ne both.1 both.2

theorem sortBy_congr (once : items.Nodup) (apart : (others.map rank).Nodup)
    (same : ∀ item, item ∈ items ↔ item ∈ others) : sortBy rank items = sortBy rank others := by
  refine sortBy_eq rank (sortBy_strict rank apart) once fun item => ?_
  rw [mem_sortBy,same]

theorem sortBy_filter (apart : (items.map rank).Nodup) (keep : α → Bool) :
    (sortBy rank items).filter keep = sortBy rank (items.filter keep) := by
  refine (sortBy_eq rank ((sortBy_strict rank apart).filter _) (apart.of_map.filter _) fun item => ?_).symm
  rw [mem_filter,mem_filter,mem_sortBy]

theorem filter_cut {items : List α} (ordered : items.Pairwise fun a b => rank a ≤ rank b) (keep : α → Bool)
    (low high : ρ)
    (forward : low ≤ high) : (items.filter fun item => keep item && decide (rank item ≤ low)) ++
      (items.filter fun item => keep item && (decide (low < rank item) && decide (rank item ≤ high))) =
      items.filter fun item => keep item && decide (rank item ≤ high) := by
  induction items with
  | nil => rfl
  | cons item rest ih =>
    rw [pairwise_cons] at ordered
    have later := ih ordered.2
    by_cases below : rank item ≤ low
    · have upto : rank item ≤ high := le_trans below forward
      have notAbove : ¬ low < rank item := not_lt.mpr below
      cases kept : keep item <;> simp [kept,below,upto,notAbove,later]
    · -- Nothing after the first item past the cut is below it.
      have none : (rest.filter fun item => keep item && decide (rank item ≤ low)) = [] := by
        rw [filter_eq_nil_iff]
        intro other member inside
        simp only [Bool.and_eq_true,decide_eq_true_eq] at inside
        exact below (le_trans (ordered.1 other member) inside.2)
      rw [none,nil_append] at later
      have above : low < rank item := not_le.mp below
      simp only [filter_cons,below,above,decide_false,decide_true,Bool.and_false,Bool.true_and,Bool.false_eq_true,
        if_false,none,nil_append,later]

end

-- `sorted({...})`
def sortedSet [LinearOrder α] (items : List α) : List α := sortBy id (unique items)

theorem sortedSet_nodup [LinearOrder α] (items : List α) : (sortedSet items).Nodup :=
  (perm_sortBy id _).nodup_iff.mpr (insertKeys_nodup _ nodup_nil)

@[simp] theorem mem_sortedSet [LinearOrder α] (items : List α) (item : α) : item ∈ sortedSet items ↔ item ∈ items := by
  simp [sortedSet,mem_unique]

section Selection
variable [LinearOrder ρ] [LinearOrder φ] (rank : α → ρ) (figure : α → φ)

-- The first by rank, then the others of its figure.
def selection (items : List α) : List α :=
  match sortBy rank items with
  | [] => []
  | best :: others => best :: others.filter (figure · = figure best)

def top (items : List α) (item : α) : Bool := items.all (figure · ≤ figure item)

variable {rank figure} (falls : ∀ a b, rank a ≤ rank b → figure b ≤ figure a)
include falls

theorem selection_eq (items : List α) : selection rank figure items = (sortBy rank items).filter (top figure items) :=
    by
  have ordered := pairwise_sortBy rank items
  have same := mem_sortBy rank items
  unfold selection
  cases sorted : sortBy rank items with
  | nil => rfl
  | cons best others =>
    rw [sorted] at ordered same
    have below : ∀ other ∈ items, figure other ≤ figure best := by
      intro other member
      rcases mem_cons.mp ((same other).mpr member) with is | later
      · rw [is]
      · exact falls _ _ ((pairwise_cons.mp ordered).1 other later)
    rw [filter_cons_of_pos (by simpa [top] using below)]
    refine congrArg _ (filter_congr fun other member => ?_)
    rw [Bool.eq_iff_iff,decide_eq_true_eq,top,all_eq_true]
    simp only [decide_eq_true_eq]
    constructor
    · exact fun equal third inside => equal ▸ below third inside
    · exact fun most => le_antisymm (below other ((same other).mp (mem_cons_of_mem _ member)))
        (most best ((same best).mp mem_cons_self))

theorem mem_selection : item ∈ selection rank figure items ↔ item ∈ items ∧ ∀ other ∈ items,
    figure other ≤ figure item := by
  simp [selection_eq falls,top]

theorem exists_selected (member : item ∈ items) : ∃ best ∈ selection rank figure items, figure item ≤ figure best := by
  have some_ : selection rank figure items ≠ [] := by
    rw [← mem_sortBy rank] at member
    unfold selection
    split
    · rename_i sorted
      rw [sorted] at member
      cases member
    · exact cons_ne_nil _ _
  obtain ⟨best,listed⟩ := exists_mem_of_ne_nil _ some_
  exact ⟨best,listed,((mem_selection falls).mp listed).2 item member⟩

theorem selection_nodup (once : items.Nodup) : (selection rank figure items).Nodup := by
  rw [selection_eq falls]
  exact ((perm_sortBy rank items).nodup_iff.mpr once).filter _

-- Selecting among the selections of groups is selecting among all.
theorem selection_pooled [DecidableEq α] (groups : List (List α)) (apart : (whole.map rank).Nodup)
    (same : ∀ item, item ∈ whole ↔ ∃ group ∈ groups, item ∈ group) :
    selection rank figure (unique (groups.flatMap (selection rank figure))) = selection rank figure whole := by
  have pooled (item : α) : item ∈ unique (groups.flatMap (selection rank figure)) ↔
    ∃ group ∈ groups, item ∈ selection rank figure group := by
    rw [mem_unique,mem_flatMap]
  have inside (item : α) (member : item ∈ unique (groups.flatMap (selection rank figure))) : item ∈ whole := by
    obtain ⟨group,listed,selected⟩ := (pooled item).mp member
    exact (same item).mpr ⟨group,listed,((mem_selection falls).mp selected).1⟩
  have fewer := insertKeys_nodup (groups.flatMap (selection rank figure)) nodup_nil
  rw [selection_eq falls,selection_eq falls,sortBy_filter _ apart,sortBy_filter _
    (fewer.map_on fun first member second other => inj_on_of_nodup_map apart (inside first member)
      (inside second other))]
  refine sortBy_congr _ (fewer.filter _) (apart.sublist (filter_sublist.map _)) fun item => ?_
  simp only [mem_filter,top,all_eq_true,decide_eq_true_eq]
  constructor
  · rintro ⟨member,most⟩
    refine ⟨inside item member,fun other among => ?_⟩
    -- The other's group has its best in the pool.
    obtain ⟨group,listed,here⟩ := (same other).mp among
    obtain ⟨best,selected,below⟩ := exists_selected falls here
    exact below.trans (most best ((pooled best).mpr ⟨group,listed,selected⟩))
  · rintro ⟨among,most⟩
    obtain ⟨group,listed,here⟩ := (same item).mp among
    refine ⟨(pooled item).mpr ⟨group,listed,(mem_selection falls).mpr ⟨here,?_⟩⟩,fun other member =>
      most other (inside other member)⟩
    exact fun other member => most other ((same other).mpr ⟨group,listed,member⟩)

end Selection

end Psat.General.Sorted
