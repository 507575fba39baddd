import Mathlib.Data.List.Induction
import Psat.General.Grouped
import Psat.Surface.Expansion

namespace Psat.Surface
open Psat.Capability Psat.General List
open Expansion (crossed)
open Ordered (insertKey insertKeys insertKeys_append unique_unique)

-- The interned conditions: no condition twice, and the unread condition first.
structure Table where
  conditions : List Condition
  distinct : conditions.Nodup
  opens : conditions[0]? = some conditionNotRead

instance : Preorder Table where
  le a b := a.conditions <+: b.conditions
  le_refl a := prefix_refl a.conditions
  le_trans _ _ _ first second := List.IsPrefix.trans first second

def Shows (ledger : Ledger) (table : Table) : Prop := ledger.table = table.conditions

def Interned (table : Table) (ident : Nat) (condition : Condition) : Prop := table.conditions[ident]? = some condition

def Reads (table : Table) (ids : Ids) (conditions : List Condition) : Prop :=
  List.Forall₂ (Interned table) ids conditions

theorem interned_biUnique (table : Table) : Relator.BiUnique (Interned table) := by
  constructor
  · intro first second condition held again
    have bound : first < table.conditions.length := (List.getElem?_eq_some_iff.mp held).1
    exact (getElem?_inj bound table.distinct).mp (held.trans again.symm)
  · intro ident first second held again
    exact Option.some.inj (held.symm.trans again)

theorem Reads.flatten (each : List.Forall₂ (Reads table) parts lists) : Reads table parts.flatten lists.flatten := by
  induction each with
  | nil => exact .nil
  | cons first _ ih => exact rel_append first ih

theorem Reads.unique (reads : Reads table ids conditions) :
    Reads table (Ordered.unique ids) (Ordered.unique conditions) :=
  Ordered.insertKeys_related (interned_biUnique table) .nil reads

theorem Reads.uniqued
    (each : List.Forall₂ (fun ids conditions => Reads table ids (Ordered.unique conditions)) parts lists) :
    Reads table (Ordered.unique parts.flatten) (Ordered.unique lists.flatten) := by
  have mapped : List.Forall₂ (Reads table) parts (lists.map Ordered.unique) := forall₂_map_right_iff.mpr each
  have read := (Reads.flatten mapped).unique
  rwa [Ordered.unique_flatten_unique] at read

theorem Reads.pair (one : Reads table first (Ordered.unique a))
    (two : Reads table second (Ordered.unique b)) : Reads table (Ordered.unique [first,second].flatten)
    (Ordered.unique (a ++ b)) := by
  have read := Reads.uniqued (.cons one (.cons two .nil))
  rwa [show [a,b].flatten = a ++ b by simp] at read

theorem Reads.triple (one : Reads table first (Ordered.unique a))
    (two : Reads table second (Ordered.unique b)) (three : Reads table third (Ordered.unique c)) :
    Reads table (Ordered.unique [first,second,third].flatten) (Ordered.unique (a ++ b ++ c)) := by
  have read := Reads.uniqued (.cons one (.cons two (.cons three .nil)))
  rwa [show [a,b,c].flatten = a ++ b ++ c by simp] at read

theorem Reads.isEmpty (reads : Reads table ids conditions) : ids = [] ↔ conditions = [] := by
  cases reads with
  | nil => exact ⟨fun _ => rfl,fun _ => rfl⟩
  | cons => exact ⟨fun none => absurd none (cons_ne_nil _ _),fun none => absurd none (cons_ne_nil _ _)⟩

theorem Reads.read (reads : Reads table ids conditions) : (ids.filterMap fun ident => table.conditions[ident]?) =
    conditions := by
  induction reads with
  | nil => rfl
  | cons first _ ih => rw [filterMap_cons,show table.conditions[_]? = some _ from first,ih]

theorem merged_self : mergedMembershipQuality a a = a := if_pos rfl

theorem merged_assoc :
    mergedMembershipQuality (mergedMembershipQuality a b) c = mergedMembershipQuality a (mergedMembershipQuality b c) :=
    by
  rcases a with _ | (_ | _ | _) <;> rcases b with _ | (_ | _ | _) <;> rcases c with _ | (_ | _ | _) <;> rfl

def Row.trace (row : Row) : List TraceStep := row.details.trace

def Row.quality (row : Row) : Option MembershipQuality := row.details.membershipQuality.join

def Row.hasQuality (row : Row) : Bool := row.details.membershipQuality.isSome

def weakest (quality : Option MembershipQuality) (copies : List Row) : Option MembershipQuality :=
  copies.foldl (fun q copy => mergedMembershipQuality q copy.quality) quality

def mergedDetails (first : Row) (rest : List Row) : Details :=
  {first.details with
     conditions:=some (Ordered.unique ((first :: rest).flatMap Row.conditions))
     trace:=insertKeys first.trace ((first :: rest).flatMap Row.trace)
     membershipQuality:=if (first :: rest).any Row.hasQuality then some (weakest first.quality (first :: rest))
       else none}

def mergedCopies (first : Row) (rest : List Row) : Row :=
  if rest = [] then first else {first with details:=mergedDetails first rest}

theorem insertKeys_isEmpty [DecidableEq κ] (keys : List κ) :
    (if (insertKeys keys more).isEmpty then keys else insertKeys keys more) = insertKeys keys more := by
  split
  · rename_i none
    have empty := List.isEmpty_iff.mp none
    rw [empty,(Ordered.insertKeys_eq_nil.mp empty).1]
  · rfl

theorem weakest_self (copy : Row) (rest : List Row) : weakest copy.quality (copy :: rest) = weakest copy.quality rest :=
    by
  unfold weakest
  rw [foldl_cons,merged_self]

theorem weakest_append :
    weakest quality (first ++ second) = weakest (weakest quality first) second := foldl_append

theorem weakest_none (none : copies.any Row.hasQuality = false) : weakest Option.none copies = Option.none := by
  induction copies with
  | nil => rfl
  | cons copy rest ih =>
    rw [any_cons,Bool.or_eq_false_iff] at none
    have absent : copy.quality = Option.none := by
      rw [Row.quality,Option.not_isSome_iff_eq_none.mp (Bool.eq_false_iff.mp none.1)]
      rfl
    change weakest (mergedMembershipQuality Option.none copy.quality) rest = Option.none
    rw [absent,merged_self]
    exact ih none.2

theorem mergeCopy_eq : mergeCopy existing row = {existing with details:={existing.details with
    conditions:=some (Ordered.unique (existing.conditions ++ row.conditions))
    trace:=insertKeys existing.trace row.trace
    membershipQuality:=
      if existing.hasQuality || row.hasQuality then some (mergedMembershipQuality existing.quality row.quality)
        else none}} := by
  unfold mergeCopy
  dsimp only
  rw [insertKeys_isEmpty]
  by_cases present : (existing.details.membershipQuality.isSome || row.details.membershipQuality.isSome) = true
  · rw [if_pos present,if_pos (show (existing.hasQuality || row.hasQuality) = true from present)]
    rfl
  · rw [if_neg present,if_neg (show ¬(existing.hasQuality || row.hasQuality) = true from present)]
    rw [Bool.or_eq_true,not_or] at present
    rw [Option.not_isSome_iff_eq_none.mp present.1]
    rfl

section MergedCopies
variable (copy : Row) (rest : List Row)

theorem mergedCopies_conditions :
    Ordered.unique (mergedCopies copy rest).conditions = Ordered.unique ((copy :: rest).flatMap Row.conditions) := by
  unfold mergedCopies
  split
  · rename_i lone
    rw [lone,flatMap_singleton]
  · exact unique_unique _

theorem mergedCopies_trace : (mergedCopies copy rest).trace = insertKeys copy.trace
    ((copy :: rest).flatMap Row.trace) := by
  unfold mergedCopies
  split
  · rename_i lone
    rw [lone,flatMap_singleton,Ordered.insertKeys_known (List.Subset.refl _)]
  · rfl

theorem mergedCopies_hasQuality : (mergedCopies copy rest).hasQuality = (copy :: rest).any Row.hasQuality := by
  unfold mergedCopies
  split
  · rename_i lone
    rw [lone,any_cons,any_nil,Bool.or_false]
  · change (if (copy :: rest).any Row.hasQuality then some (weakest copy.quality (copy :: rest)) else none).isSome = _
    cases (copy :: rest).any Row.hasQuality <;> rfl

theorem mergedCopies_quality : (mergedCopies copy rest).quality = weakest copy.quality (copy :: rest) := by
  unfold mergedCopies
  split
  · rename_i lone
    rw [lone,weakest_self]
    rfl
  · change (if (copy :: rest).any Row.hasQuality then some (weakest copy.quality (copy :: rest)) else none).join = _
    cases present : (copy :: rest).any Row.hasQuality with
    | true => rfl
    | false =>
      have first := present
      rw [any_cons,Bool.or_eq_false_iff] at first
      have absent : copy.quality = none := by
        rw [Row.quality,Option.not_isSome_iff_eq_none.mp (Bool.eq_false_iff.mp first.1)]
        rfl
      rw [absent,weakest_none present]
      rfl

theorem mergedCopies_bare :
    {mergedCopies copy rest with details:={(mergedCopies copy rest).details with conditions,trace,membershipQuality}} =
      ({copy with details:={copy.details with conditions,trace,membershipQuality}} : Row) := by
  unfold mergedCopies
  split <;> rfl

theorem mergeCopy_mergedCopies : mergeCopy (mergedCopies copy rest) row = mergedCopies copy (rest ++ [row]) := by
  have several : rest ++ [row] ≠ [] := append_ne_nil_of_right_ne_nil _ (cons_ne_nil _ _)
  have conditions : Ordered.unique ((mergedCopies copy rest).conditions ++ row.conditions) =
    Ordered.unique ((copy :: (rest ++ [row])).flatMap Row.conditions) := by
    rw [Ordered.unique,insertKeys_append]
    change insertKeys (Ordered.unique (mergedCopies copy rest).conditions) row.conditions = _
    rw [mergedCopies_conditions,← cons_append,flatMap_append,flatMap_singleton,Ordered.unique,Ordered.unique,
      insertKeys_append]
  have trace : insertKeys (mergedCopies copy rest).trace row.trace =
    insertKeys copy.trace ((copy :: (rest ++ [row])).flatMap Row.trace) := by
    rw [mergedCopies_trace,← cons_append,flatMap_append,flatMap_singleton,insertKeys_append]
  have hasQuality : ((mergedCopies copy rest).hasQuality || row.hasQuality) =
    (copy :: (rest ++ [row])).any Row.hasQuality := by
    rw [mergedCopies_hasQuality,← cons_append,any_append]
    simp
  have quality : mergedMembershipQuality (mergedCopies copy rest).quality row.quality = weakest copy.quality
    (copy :: (rest ++ [row])) := by
    rw [mergedCopies_quality,← cons_append,weakest_append]
    rfl
  rw [mergeCopy_eq,conditions,trace,hasQuality,quality,mergedCopies_bare,mergedCopies,if_neg several]
  rfl

end MergedCopies

theorem rowKey_mergeCopy : rowKey (mergeCopy existing row) = rowKey existing := rfl

def grouped (rows : List Row) (key : RowKey) : List Row := rows.filter fun row => rowKey row = key

theorem grouped_append (first second : List Row) (key : RowKey) : grouped
    (first ++ second) key = grouped first key ++ grouped second key :=
  filter_append ..

def mergeGroup : List Row → Option Row
  | [] => none
  | copy :: rest => some (mergedCopies copy rest)

theorem mergeGroup_append (known : mergeGroup copies = some merged) (row : Row) :
    mergeGroup (copies ++ [row]) = some (mergeCopy merged row) := by
  cases copies with
  | nil => cases known
  | cons copy rest =>
    cases known
    rw [mergeCopy_mergedCopies]
    rfl

theorem addRow_keys : (addRow out row).map rowKey = insertKey (out.map rowKey) (rowKey row) := by
  unfold addRow insertKey
  by_cases present : out.any (fun existing => rowKey existing = rowKey row) = true
  · have member : rowKey row ∈ out.map rowKey := by simpa using present
    rw [if_pos present,if_pos member,map_map]
    refine map_congr_left fun existing _ => ?_
    rw [Function.comp_apply]
    split <;> rfl
  · have member : rowKey row ∉ out.map rowKey := by simpa using present
    rw [if_neg present,if_neg member,map_append]
    rfl

theorem dedupe_keys (rows : List Row) : (dedupe rows).map rowKey = Ordered.unique (rows.map rowKey) := by
  induction rows using List.reverseRecOn with
  | nil => rfl
  | append_singleton rows row ih =>
    rw [dedupe,foldl_append,map_append,Ordered.unique,insertKeys_append]
    change (addRow (dedupe rows) row).map rowKey = insertKey (Ordered.unique (rows.map rowKey)) (rowKey row)
    rw [addRow_keys,ih]

theorem dedupe_grouped (rows : List Row) : ∀ row ∈ dedupe rows, mergeGroup (grouped rows (rowKey row)) = some row := by
  induction rows using List.reverseRecOn with
  | nil => exact fun row member => absurd member not_mem_nil
  | append_singleton rows row ih =>
    have here : grouped [row] (rowKey row) = [row] := by simp [grouped]
    have elsewhere : ∀ key, key ≠ rowKey row → grouped [row] key = [] := by
      intro key other
      simp [grouped,Ne.symm other]
    intro out member
    rw [dedupe,foldl_append] at member
    change out ∈ addRow (dedupe rows) row at member
    rw [grouped_append]
    unfold addRow at member
    split at member
    · obtain ⟨existing,inside,rfl⟩ := mem_map.mp member
      by_cases same : rowKey existing = rowKey row
      · rw [if_pos same,rowKey_mergeCopy,same,here,← same]
        exact mergeGroup_append (ih existing inside) row
      · rw [if_neg same,elsewhere _ same,append_nil]
        exact ih existing inside
    · rename_i absent
      have fresh : ∀ existing ∈ dedupe rows, rowKey existing ≠ rowKey row := by simpa using absent
      rcases mem_append.mp member with inside | new
      · rw [elsewhere _ (fresh out inside),append_nil]
        exact ih out inside
      · obtain rfl := mem_singleton.mp new
        have none : grouped rows (rowKey out) = [] := by
          refine filter_eq_nil_iff.mpr fun other inside same => ?_
          have key : rowKey out ∈ (dedupe rows).map rowKey := by
            rw [dedupe_keys,Ordered.mem_unique,← of_decide_eq_true same]
            exact mem_map_of_mem inside
          obtain ⟨existing,held,equal⟩ := mem_map.mp key
          exact fresh existing held equal
        rw [none,here]
        rfl

structure Held (table : Table) (acc : RowAcc) (copy : Row) (rest : List Row) : Prop where
  untouched : acc.touched = false → acc.row = copy
  touched : acc.touched = true →
    copy = {acc.row with details:={acc.row.details with conditions:=some (Ordered.unique copy.conditions)}}
  first : Reads table acc.first (Ordered.unique copy.conditions)
  union : Reads table acc.union (Ordered.unique ((copy :: rest).flatMap Row.conditions))
  multi : acc.multi = !rest.isEmpty
  trace : acc.trace = insertKeys copy.trace ((copy :: rest).flatMap Row.trace)
  hasQuality : acc.hasQuality = (copy :: rest).any Row.hasQuality
  quality : acc.quality = weakest copy.quality (copy :: rest)

theorem mergedDetails_bare (copy : Row) (rest : List Row) (row : Row) (conditions : Option (List Condition))
    (same : copy = {row with details:={row.details with conditions}}) :
    mergedDetails copy rest = {row.details with
      conditions:=some (Ordered.unique ((copy :: rest).flatMap Row.conditions))
      trace:=insertKeys row.details.trace ((copy :: rest).flatMap Row.trace)
      membershipQuality:=
        if (copy :: rest).any Row.hasQuality then some (weakest copy.quality (copy :: rest))
          else row.details.membershipQuality} := by
  unfold mergedDetails
  rw [show copy.trace = row.details.trace by rw [same]; rfl]
  have quality : row.details.membershipQuality = copy.details.membershipQuality := by rw [same]
  by_cases present : (copy :: rest).any Row.hasQuality = true
  · rw [if_pos present,if_pos present,same]
  · rw [if_neg present,if_neg present]
    have none : copy.details.membershipQuality = none := by
      rw [any_cons,Bool.or_eq_true,not_or] at present
      exact Option.not_isSome_iff_eq_none.mp present.1
    rw [quality,none,same]

theorem Held.materialize (held : Held table acc copy rest) : acc.materialize table.conditions =
    mergedCopies copy rest := by
  have shape : ∃ conditions, copy = {acc.row with details:={acc.row.details with conditions}} := by
    cases touched : acc.touched with
    | true => exact ⟨_,held.touched touched⟩
    | false => exact ⟨acc.row.details.conditions,(held.untouched touched).symm⟩
  obtain ⟨conditions,same⟩ := shape
  unfold RowAcc.materialize mergedCopies
  dsimp only
  rw [held.multi,held.union.read,held.first.read]
  by_cases lone : rest = []
  · rw [if_pos lone,lone]
    cases touched : acc.touched with
    | true => exact (held.touched touched).symm
    | false => exact held.untouched touched
  · have several : (!rest.isEmpty) = true := by rw [isEmpty_eq_false_iff.mpr lone]; rfl
    rw [if_neg lone,if_pos several,mergedDetails_bare copy rest acc.row conditions same,held.hasQuality,
      held.quality,held.trace,
      show copy.trace = acc.row.details.trace by rw [same]; rfl,insertKeys_isEmpty]
    rw [same]

section With
variable (row : Row) (conditions : List Condition)

theorem with_conditions : Ordered.unique (row.with_ conditions).conditions = Ordered.unique
    (row.conditions ++ conditions) := by
  unfold Row.with_ detailsWithConditions
  split
  · rename_i none
    rw [none,append_nil]
  · exact unique_unique _

theorem with_trace : (row.with_ conditions).trace = row.trace := by
  unfold Row.with_ detailsWithConditions
  split <;> rfl

theorem with_quality : (row.with_ conditions).quality = row.quality := by
  unfold Row.with_ detailsWithConditions
  split <;> rfl

theorem with_hasQuality : (row.with_ conditions).hasQuality = row.hasQuality := by
  unfold Row.with_ detailsWithConditions
  split <;> rfl

end With

-- A product repeats each copy once for each path.
section Product
variable (paths : List (List Condition)) (some : paths ≠ [])
include some

theorem crossed_trace (keys : List TraceStep) (rows : List Row) :
    insertKeys keys ((crossed rows paths).flatMap Row.trace) = insertKeys keys (rows.flatMap Row.trace) := by
  induction rows generalizing keys with
  | nil => rfl
  | cons row rest ih =>
    have block : (paths.map row.with_).flatMap Row.trace = paths.flatMap fun _ => row.trace := by
      rw [flatMap_map]
      exact flatMap_congr fun path _ => with_trace row path
    unfold crossed at ih ⊢
    rw [flatMap_cons,flatMap_append,insertKeys_append,block,Ordered.insertKeys_repeat keys row.trace paths some,ih,
      ← insertKeys_append,← flatMap_cons]

theorem weakest_repeated (quality : Option MembershipQuality) (row : Row) :
    weakest quality (paths.map row.with_) = mergedMembershipQuality quality row.quality := by
  induction paths generalizing quality with
  | nil => exact absurd rfl some
  | cons path rest ih =>
    change weakest (mergedMembershipQuality quality (row.with_ path).quality) (rest.map row.with_) = _
    rw [with_quality]
    cases rest with
    | nil => rfl
    | cons next more => rw [ih (cons_ne_nil _ _),merged_assoc,merged_self]

theorem crossed_quality (quality : Option MembershipQuality) (rows : List Row) :
    weakest quality (crossed rows paths) = weakest quality rows := by
  induction rows generalizing quality with
  | nil => rfl
  | cons row rest ih =>
    unfold crossed at ih ⊢
    rw [flatMap_cons,weakest_append,weakest_repeated paths some,ih]
    rfl

theorem crossed_hasQuality (rows : List Row) : (crossed rows paths).any Row.hasQuality = rows.any Row.hasQuality := by
  have block : ∀ row : Row, (paths.map row.with_).any Row.hasQuality = row.hasQuality := by
    cases paths with
    | nil => exact absurd rfl some
    | cons path others => simp [Function.comp_def,with_hasQuality]
  unfold crossed
  rw [any_flatMap]
  exact congrArg (rows.any ·) (funext block)

theorem crossed_conditions (copy : Row) (rest : List Row) :
    Ordered.unique ((crossed (copy :: rest) paths).flatMap Row.conditions) =
      Ordered.unique (copy.conditions ++ paths.flatten ++ (copy :: rest).flatMap Row.conditions) := by
  have spread : Ordered.unique ((crossed (copy :: rest) paths).flatMap Row.conditions) =
    Ordered.unique ((copy :: rest).flatMap fun row => paths.flatMap fun path => row.conditions ++ path) := by
    unfold crossed
    rw [flatMap_assoc]
    refine Ordered.unique_flatMap_congr fun row _ => ?_
    rw [flatMap_map]
    exact Ordered.unique_flatMap_congr fun path _ => with_conditions row path
  have product := Ordered.unique_product copy.conditions (rest.map Row.conditions) paths some
  rw [← map_cons (f:=Row.conditions),flatMap_map,← flatMap_def] at product
  rw [spread,product]

end Product

def mergedAcc (earlier later : RowAcc) : RowAcc :=
  {earlier with
     union:=Ordered.unique [earlier.union,later.union].flatten
     multi:=true
     trace:=insertKeys earlier.trace later.trace
     hasQuality:=earlier.hasQuality || later.hasQuality
     quality:=mergedMembershipQuality earlier.quality later.quality}

theorem weakest_merged :
    mergedMembershipQuality quality (weakest first copies) = weakest (mergedMembershipQuality quality first) copies :=
    by
  induction copies generalizing first with
  | nil => rfl
  | cons copy rest ih =>
    change mergedMembershipQuality quality (weakest (mergedMembershipQuality first copy.quality) rest) = _
    rw [ih,← merged_assoc]
    rfl

theorem Held.merge (first : Held table earlier copy rest) (second : Held table later other others) :
    Held table (mergedAcc earlier later) copy (rest ++ other :: others) where
  untouched := first.untouched
  touched := first.touched
  first := first.first
  union := by
    have read := first.union.pair second.union
    rwa [← flatMap_append,cons_append] at read
  multi := by simp [mergedAcc]
  trace := by
    change insertKeys earlier.trace later.trace = _
    rw [first.trace,second.trace,Ordered.insertKeys_insertKeys,← cons_append,flatMap_append,insertKeys_append]
    exact Ordered.insertKeys_again _ other.trace (others.flatMap Row.trace)
  hasQuality := by
    change (earlier.hasQuality || later.hasQuality) = _
    rw [first.hasQuality,second.hasQuality,← cons_append,any_append]
  quality := by
    change mergedMembershipQuality earlier.quality later.quality = _
    rw [first.quality,second.quality,weakest_self other,weakest_merged,← cons_append,weakest_append]
    rfl

def crossedAcc (pfirst punion : Ids) (count : Nat) (acc : RowAcc) : RowAcc :=
  {acc with
     first:=if pfirst = [] then acc.first else Ordered.unique [acc.first,pfirst].flatten
     union:=Ordered.unique [acc.first,punion,acc.union].flatten
     multi:=acc.multi || decide (1 < count)
     touched:=acc.touched || !pfirst.isEmpty}

theorem crossed_cons (path : List Condition) (paths : List (List Condition)) :
    crossed (copy :: rest) (path :: paths) =
      copy.with_ path :: (paths.map copy.with_ ++ crossed rest (path :: paths)) := rfl

theorem Held.crossed (held : Held table acc copy rest)
    (firstPath : Reads table pfirst (Ordered.unique path))
    (allPaths : Reads table punion (Ordered.unique (path :: paths).flatten)) :
    Held table (crossedAcc pfirst punion (path :: paths).length acc) (copy.with_ path)
      (paths.map copy.with_ ++ crossed rest (path :: paths)) := by
  have several : path :: paths ≠ [] := cons_ne_nil _ _
  have bare : pfirst = [] ↔ path = [] := by
    rw [firstPath.isEmpty,Ordered.unique,Ordered.insertKeys_eq_nil]
    exact ⟨fun none => none.2,fun none => ⟨rfl,none⟩⟩
  constructor
  · intro untouched
    obtain ⟨before,none⟩ := Bool.or_eq_false_iff.mp untouched
    have empty : path = [] := bare.mp (by simpa using none)
    rw [empty]
    exact held.untouched before
  · intro touched
    by_cases empty : path = []
    · subst empty
      have before : acc.touched = true := by simpa [crossedAcc,bare.mpr rfl] using touched
      exact held.touched before
    · rw [with_conditions]
      have shape : ∃ conditions, copy = {acc.row with details:={acc.row.details with conditions}} := by
        cases before : acc.touched with
        | true => exact ⟨_,held.touched before⟩
        | false => exact ⟨acc.row.details.conditions,(held.untouched before).symm⟩
      obtain ⟨conditions,same⟩ := shape
      unfold Row.with_ detailsWithConditions
      rw [if_neg empty]
      rw [same]
      rfl
  · change Reads table (if pfirst = [] then acc.first else _) _
    rw [with_conditions]
    by_cases empty : path = []
    · rw [if_pos (bare.mpr empty),empty,append_nil]
      exact held.first
    · rw [if_neg fun none => empty (bare.mp none)]
      exact held.first.pair firstPath
  · rw [← crossed_cons,crossed_conditions _ several]
    exact held.first.triple allPaths held.union
  · change (acc.multi || decide (1 < (path :: paths).length)) = _
    rw [held.multi]
    cases paths with
    | nil =>
      cases rest with
      | nil => rfl
      | cons => rfl
    | cons => simp
  · rw [← crossed_cons,with_trace,crossed_trace _ several]
    exact held.trace
  · rw [← crossed_cons,crossed_hasQuality _ several]
    exact held.hasQuality
  · rw [← crossed_cons,with_quality,crossed_quality _ several]
    exact held.quality

end Psat.Surface
