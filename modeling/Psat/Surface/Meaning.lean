import Psat.Surface.Copies

namespace Psat.Surface
open Psat.Capability Psat.General List Ordered
open Ordered (keys mapValues mergeAll unique unique_flatMap_congr unique_unique)
open Expansion (crossed passed)

def HeldAll (table : Table) (acc : RowAcc) (copies : List Row) : Prop :=
  ∃ copy rest, copies = copy :: rest ∧ Held table acc copy rest

-- The dictionary of merged rows stands for the rows written out.
structure RowsMean (table : Table) (rows : List (RowKey × RowAcc)) (copies : List Row) : Prop where
  keys : keys rows = unique (copies.map rowKey)
  groups : Represents (HeldAll table) rows (grouped copies)

-- Count, first path, union and expression stand for the paths written out.
structure PathsMean (table : Table) (s : Summary) (paths : List (List Condition)) : Prop where
  count : s.count = paths.length
  first : ∀ path rest, paths = path :: rest → Reads table s.pfirst (unique path)
  union : paths ≠ [] → Reads table s.punion (unique paths.flatten)
  listed : paths ≠ [] → ∃ expr, s.pexpr = some expr ∧ List.Forall₂ (Reads table) (enumeratePaths expr)
    (paths.map unique)

structure Means (table : Table) (s : Summary) (e : Expansion) : Prop where
  rows : RowsMean table s.rows e.rows
  paths : PathsMean table s e.paths
  residual : s.residual = e.residual
  ond : s.ond = e.ond
  nobody : s.nobody = e.nobody

theorem RowsMean.nil (table : Table) : RowsMean table [] [] := ⟨rfl,Ordered.Represents.nil⟩

theorem RowsMean.isEmpty (means : RowsMean table rows copies) : rows.isEmpty = copies.isEmpty := by
  have keys := means.keys
  cases rows with
  | nil =>
    cases copies with
    | nil => rfl
    | cons => exact absurd (insertKeys_eq_nil.mp keys.symm).2 (cons_ne_nil _ _)
  | cons =>
    cases copies with
    | nil => exact absurd keys (cons_ne_nil _ _)
    | cons => rfl

theorem PathsMean.none (table : Table) (count : s.count = 0) : PathsMean table s [] where
  count := count
  first := fun _ _ same => absurd same.symm (cons_ne_nil _ _)
  union := fun some => absurd rfl some
  listed := fun some => absurd rfl some

theorem PathsMean.empty (means : PathsMean table s paths) :
    s.count = 0 ↔ paths = [] := by rw [means.count,length_eq_zero_iff]

theorem PathsMean.same (means : PathsMean table s paths)
    (count : s'.count = s.count) (first : s'.pfirst = s.pfirst) (union : s'.punion = s.punion)
    (expr : s'.pexpr = s.pexpr) :
    PathsMean table s' paths := by
  constructor
  · rw [count]
    exact means.count
  · rw [first]
    exact means.first
  · rw [union]
    exact means.union
  · rw [expr]
    exact means.listed

theorem Means.valid (means : Means table s e) : s.valid = e.valid := by
  unfold Summary.valid Expansion.valid
  rw [means.rows.isEmpty,means.paths.count]
  cases e.paths with
  | nil => rfl
  | cons => simp

theorem crossed_keys (copies : List Row) (some : paths ≠ []) :
    unique ((crossed copies paths).map rowKey) = unique (copies.map rowKey) := by
  have shape : (crossed copies paths).map rowKey = copies.flatMap fun row => paths.flatMap fun _ => [rowKey row] := by
    unfold crossed
    rw [map_flatMap]
    refine flatMap_congr fun row _ => ?_
    rw [map_map]
    exact map_eq_flatMap
  rw [shape,map_eq_flatMap (l:=copies)]
  exact unique_flatMap_congr fun row _ => insertKeys_repeat [] [rowKey row] paths some

theorem crossed_grouped (copies : List Row) (key : RowKey) :
    grouped (crossed copies paths) key = crossed (grouped copies key) paths := by
  unfold grouped crossed
  rw [filter_flatMap]
  induction copies with
  | nil => rfl
  | cons copy rest ih =>
    rw [flatMap_cons,ih,filter_cons]
    by_cases here : rowKey copy = key
    · rw [if_pos (decide_eq_true here),flatMap_cons]
      congr 1
      exact filter_eq_self.mpr fun row member => by
        obtain ⟨path,_,rfl⟩ := mem_map.mp member
        exact decide_eq_true here
    · rw [if_neg fun same => here (of_decide_eq_true same)]
      have none : (paths.map copy.with_).filter (fun row => rowKey row = key) = [] := by
        refine filter_eq_nil_iff.mpr fun row member same => ?_
        obtain ⟨path,_,rfl⟩ := mem_map.mp member
        exact here (of_decide_eq_true same)
      rw [none,nil_append]

section
variable (p : Projector)
include p

theorem spend_still (units : Nat) : Still Shows (p.spend units) fun _ => True := by
  intro s value s' view seen run
  change (if p.budget < s.work + units then none else some ((),{s with work:=s.work + units})) = some (value,s') at run
  split at run
  · cases run
  · cases run
    exact ⟨seen,trivial⟩

theorem unique_still (parts : List Ids) : Still Shows (p.unique parts) (· = unique parts.flatten) :=
  .bind (spend_still p _) fun _ _ => .pure rfl

theorem merge_still (earlier later : RowAcc) : Still Shows (p.merge earlier later) (· = mergedAcc earlier later) := by
  refine .bind (spend_still p _) fun _ _ => .bind (unique_still p _) fun union same => .pure ?_
  rw [same]
  rfl

theorem merge_held (earlier later : RowAcc) (first second : List Row) (held : HeldAll table earlier first)
    (added : HeldAll table later second) : Still Shows (p.merge earlier later) fun out => HeldAll table out
    (first ++ second) := by
  obtain ⟨copy,rest,rfl,heldFirst⟩ := held
  obtain ⟨other,others,rfl,heldSecond⟩ := added
  refine (merge_still p earlier later).weaken fun out same => ?_
  rw [same]
  exact ⟨copy,rest ++ other :: others,rfl,heldFirst.merge heldSecond⟩

theorem mergeAll_means (first : RowsMean table rows copies) (second : RowsMean table more others) :
    Still Shows (mergeAll p.merge rows more) fun out => RowsMean table out (copies ++ others) := by
  refine (mergeAll_represents (merge_held p) rows more _ _ first.groups second.groups).weaken fun out known => ⟨?_,?_⟩
  · rw [known.1,first.keys,second.keys,insertKeys_unique,map_append,unique,unique,insertKeys_append]
  · exact known.2.congr fun key => (grouped_append copies others key).symm

theorem concat_means
    (each : List.Forall₂ (RowsMean table) parts lists) : Still Shows (p.concat parts)
    fun out => RowsMean table out lists.flatten := by
  have loop : ∀ rows copies, RowsMean table rows copies → Still Shows
    (parts.foldlM (fun out part => mergeAll p.merge out part) rows) fun out => RowsMean table out
      (copies ++ lists.flatten) := by
    induction each with
    | nil =>
      intro rows copies means
      rw [flatten_nil,append_nil]
      exact .pure means
    | @cons part list parts lists first _ ih =>
      intro rows copies means
      rw [foldlM_cons,flatten_cons,← append_assoc]
      exact .bind (mergeAll_means p means first) fun out grown => ih out _ grown
  exact loop [] [] (RowsMean.nil table)

end

theorem mapCrossed_means (firstPath : Reads table pfirst (unique path))
    (allPaths : Reads table punion (unique (path :: paths).flatten))
    (mapped : ∀ acc, Still Shows (f acc) (· = crossedAcc pfirst punion (path :: paths).length acc))
    (means : RowsMean table rows copies) :
    Still Shows (mapValues f rows) fun out => RowsMean table out (crossed copies (path :: paths)) := by
  have each : ∀ acc items, HeldAll table acc items →
    Still Shows (f acc) fun out => HeldAll table out (crossed items (path :: paths)) := by
    intro acc items held
    obtain ⟨copy,rest,rfl,one⟩ := held
    refine (mapped acc).weaken fun out same => ?_
    rw [same]
    exact ⟨_,_,crossed_cons path paths,one.crossed firstPath allPaths⟩
  refine (mapValues_represents rfl each rows _ means.groups).weaken fun out known => ⟨?_,?_⟩
  · rw [known.1,means.keys,crossed_keys copies (cons_ne_nil _ _)]
  · exact known.2.congr fun key => (crossed_grouped copies key).symm

theorem withConditions_still (p : Projector) (some : ids ≠ []) (acc : RowAcc) :
    Still Shows (p.withConditions ids acc) (· = crossedAcc ids ids 1 acc) := by
  refine .bind (unique_still p _) fun first sameFirst => .bind (unique_still p _) fun union sameUnion => .pure ?_
  subst sameFirst sameUnion
  unfold crossedAcc
  rw [if_neg some,isEmpty_eq_false_iff.mpr some,Bool.not_false,Bool.or_true,decide_eq_false (Nat.lt_irrefl 1),
    Bool.or_false]

theorem crossed_single :
    crossed copies [conditions] = copies.map (·.with_ conditions) := map_eq_flatMap.symm

theorem mapWith_means (p : Projector) (some : conditions ≠ []) (reads : Reads table ids (unique conditions))
    (means : RowsMean table rows copies) :
    Still Shows (mapValues (p.withConditions ids) rows) fun out => RowsMean table out
    (copies.map (·.with_ conditions)) := by
  have present : ids ≠ [] := fun none => some (insertKeys_eq_nil.mp (reads.isEmpty.mp none)).2
  have all : Reads table ids (unique [conditions].flatten) := by
    rw [flatten_singleton]
    exact reads
  rw [← crossed_single]
  exact mapCrossed_means reads all (withConditions_still p present) means

theorem crossed_still (p : Projector) (paths : Summary) (acc : RowAcc) :
    Still Shows (p.crossed paths acc) (· = crossedAcc paths.pfirst paths.punion paths.count acc) := by
  have first : Still Shows (p.crossedFirst paths acc)
    (· = if paths.pfirst = [] then acc.first else unique [acc.first,paths.pfirst].flatten) := by
    unfold Projector.crossedFirst
    by_cases none : paths.pfirst = []
    · rw [if_pos none,if_pos none]
      exact .pure rfl
    · rw [if_neg none,if_neg none]
      exact unique_still p _
  refine .bind first fun first sameFirst => .bind (unique_still p _) fun union sameUnion => .pure ?_
  subst sameFirst sameUnion
  rfl

theorem crossedRows_means (p : Projector) (pathsMean : PathsMean table paths lists)
    (means : RowsMean table rows copies) :
    Still Shows (p.crossedRows paths rows) fun out => RowsMean table out (crossed copies lists) := by
  unfold Projector.crossedRows
  cases lists with
  | nil =>
    rw [if_pos (pathsMean.empty.mpr rfl)]
    refine .pure ?_
    rw [show crossed copies [] = [] from flatMap_eq_nil_iff.mpr fun _ _ => rfl]
    exact RowsMean.nil table
  | cons path rest =>
    rw [if_neg fun none => cons_ne_nil _ _ (pathsMean.empty.mp none)]
    refine mapCrossed_means (pathsMean.first path rest rfl) (pathsMean.union (cons_ne_nil _ _)) ?_ means
    rw [← pathsMean.count]
    exact crossed_still p paths

theorem passedRows_means (p : Projector) (side : Summary)
    (means : RowsMean table rows copies) : Still Shows (p.passedRows side rows) fun out => RowsMean table out
    (passed copies side.ond) := by
  unfold Projector.passedRows passed
  by_cases passes : side.ond = true
  · rw [if_pos passes,if_pos passes]
    have reads : Reads table Projector.notRead (unique [conditionNotRead]) := .cons table.opens .nil
    exact mapWith_means p (cons_ne_nil _ _) reads means
  · rw [if_neg passes,if_neg passes]
    exact .pure (RowsMean.nil table)

section Paths
variable {first second : List (List Condition)}

theorem PathsMean.or {s : Summary} (one : PathsMean table left first) (two : PathsMean table right second)
    (p : Projector)
    (count : s.count = left.count + right.count) : Still Shows (p.orPaths left right) fun paths =>
      PathsMean table {s with pfirst:=paths.1,punion:=paths.2.1,pexpr:=paths.2.2} (first ++ second) := by
  unfold Projector.orPaths
  by_cases noRight : right.count = 0
  · rw [if_pos noRight,two.empty.mp noRight,append_nil]
    refine .pure (one.same ?_ rfl rfl rfl)
    exact count.trans (by rw [noRight,Nat.add_zero])
  · rw [if_neg noRight]
    by_cases noLeft : left.count = 0
    · rw [if_pos noLeft,one.empty.mp noLeft,nil_append]
      refine .pure (two.same ?_ rfl rfl rfl)
      exact count.trans (by rw [noLeft,Nat.zero_add])
    · rw [if_neg noLeft]
      have someLeft : first ≠ [] := fun none => noLeft (one.empty.mpr none)
      have someRight : second ≠ [] := fun none => noRight (two.empty.mpr none)
      obtain ⟨path,rest,rfl⟩ := exists_cons_of_ne_nil someLeft
      obtain ⟨leftExpr,leftIs,leftLists⟩ := one.listed someLeft
      obtain ⟨rightExpr,rightIs,rightLists⟩ := two.listed someRight
      refine .bind (unique_still p _) fun punion same => .pure ?_
      subst same
      constructor
      · exact count.trans (by rw [one.count,two.count,length_append])
      · intro head tail shape
        obtain ⟨rfl,_⟩ := List.cons.inj shape
        exact one.first path rest rfl
      · intro _
        rw [flatten_append]
        exact (one.union someLeft).pair (two.union someRight)
      · intro _
        refine ⟨.or leftExpr rightExpr,?_,?_⟩
        · change (left.pexpr.bind fun l => right.pexpr.map fun r => PathExpr.or l r) = _
          rw [leftIs,rightIs]
          rfl
        · rw [map_append]
          exact rel_append leftLists rightLists

def continued (first second : List (List Condition)) : List (List Condition) :=
  first.flatMap fun path => second.map fun next => unique (path ++ next)

theorem continued_single (conditions : List Condition) :
    continued first [conditions] = first.map fun path => unique (path ++ conditions) := map_eq_flatMap.symm

theorem continued_union (path : List Condition) (rest : List (List Condition)) (some : second ≠ []) :
    unique (continued (path :: rest) second).flatten = unique (path ++ second.flatten ++ (path :: rest).flatten) := by
  rw [← unique_product path rest second some]
  unfold continued
  rw [← flatMap_id,flatMap_assoc]
  refine unique_flatMap_congr fun front _ => ?_
  rw [flatMap_map]
  exact unique_flatMap_congr fun back _ => unique_unique _

theorem continued_listed (firstLists : List.Forall₂ (Reads table) one (first.map unique))
    (secondLists : List.Forall₂ (Reads table) two (second.map unique)) :
    List.Forall₂ (Reads table) (one.flatMap fun path => two.map fun next => unique (path ++ next))
      ((continued first second).map unique) := by
  rw [forall₂_map_right_iff] at firstLists secondLists ⊢
  refine rel_flatMap firstLists fun path front reads => ?_
  refine rel_map (fun next back readsNext => ?_) secondLists
  rw [unique_unique]
  have read := Reads.pair reads readsNext
  rwa [show [path,next].flatten = path ++ next by simp] at read

theorem PathsMean.continue
    (one : PathsMean table left (path :: rest)) (back : List Condition) (backs : List (List Condition))
    (expr : PathExpr)
    (count : s.count = left.count * (back :: backs).length)
    (firstBack : Reads table pfirst (unique back)) (allBack : Reads table punion (unique (back :: backs).flatten))
    (first : s.pfirst = unique [left.pfirst,pfirst].flatten)
    (union : s.punion = unique [left.pfirst,punion,left.punion].flatten)
    (isExpr : s.pexpr = some expr)
    (lists : List.Forall₂ (Reads table) (enumeratePaths expr) ((continued (path :: rest) (back :: backs)).map unique)) :
    PathsMean table s (continued (path :: rest) (back :: backs)) := by
  constructor
  · rw [count,one.count]
    simp only [continued,length_flatMap,length_map,map_const',sum_replicate_nat]
  · intro head tail shape
    obtain ⟨rfl,_⟩ := List.cons.inj shape
    rw [first,unique_unique]
    exact (one.first path rest rfl).pair firstBack
  · intro _
    rw [union,continued_union path rest (cons_ne_nil _ _)]
    exact (one.first path rest rfl).triple allBack (one.union (cons_ne_nil _ _))
  · intro _
    exact ⟨expr,isExpr,lists⟩

end Paths

end Psat.Surface
