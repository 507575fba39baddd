import Mathlib.Data.Prod.Lex
import Mathlib.Data.String.Basic
import Psat.General.Dict
import Psat.General.Sorted

namespace Psat.Scoring.Exposure
open Psat.General List
open Prod (fst)
open List (argAux lookup)

abbrev Entity := String

-- The floating-point operations of the fold, with no law of arithmetic assumed.
structure Floats (F : Type) where
  zero : F
  one : F
  add : F → F → F
  sub : F → F → F
  mul : F → F → F
  round : Nat → F → F

structure Row (F : Type) where
  principalUnit : String
  capability : String
  accessPath : String
  severityProven : F
  weakness : F
  weaknessByEntity : List (Entity × F) := []
  rawPoints : F
  reachEntities : List Entity
  valueByEntity : List (Entity × F)
  distinct : (valueByEntity.map fst).Nodup
  entitiesPricedFromASheetCeiling : List Entity := []

structure Share (F : Type) where
  usd : F
  fraction : F

-- What only subsumed rows name, and which of it are sheet ceilings.
structure Exclusive (F : Type) where
  values : List (Entity × Share F) := []
  ceilings : List Entity := []

structure Finding (F : Type) extends Row F where
  subsumedExclusiveValueByEntity : List (Entity × Share F)
  subsumedExclusiveSheetCeilingEntities : List Entity

variable [LinearOrder F] (fl : Floats F)

def Row.fractionAt (row : Row F) (key : Entity) : F :=
  fl.mul row.severityProven ((lookup key row.weaknessByEntity).getD row.weakness)

def displaces (held fraction : F) (previous : Option (Share F)) : Bool :=
  match previous with
  | none => true
  | some previous => decide (fl.mul previous.usd previous.fraction < fl.mul held fraction)

-- One figure of a subsumed row against the one kept so far.
def Exclusive.offer (row : Row F) (exclusive : Exclusive F) (entry : Entity × F) : Exclusive F :=
  let fraction := row.fractionAt fl entry.1
  if displaces fl entry.2 fraction (lookup entry.1 exclusive.values) then
    let others := exclusive.ceilings.filter (· ≠ entry.1)
    {values:=Dict.put entry.1 {usd:=entry.2,fraction:=fl.round 6 fraction} exclusive.values
     ceilings:=if entry.1 ∈ row.entitiesPricedFromASheetCeiling then others ++ [entry.1] else others}
  else exclusive

def Exclusive.offerRow (occupied : List Entity) (exclusive : Exclusive F) (row : Row F) : Exclusive F :=
  (row.valueByEntity.filter fun entry => entry.1 ∉ occupied).foldl (Exclusive.offer fl row) exclusive

def occupied (top : Row F) : List Entity :=
  (top.valueByEntity.map fst).filter (· ∉ top.entitiesPricedFromASheetCeiling)

def subsume (top : Row F) (rest : List (Row F)) : Finding F :=
  let exclusive := rest.foldl (Exclusive.offerRow fl (occupied top)) {}
  {top with
     subsumedExclusiveValueByEntity:=Sorted.sortBy fst exclusive.values
     subsumedExclusiveSheetCeilingEntities:=Sorted.sortedSet exclusive.ceilings}

def Row.rank (row : Row F) : Lex (Fᵒᵈ × Lex (String × Lex (String × F))) :=
  toLex (OrderDual.toDual row.rawPoints,toLex (row.capability,toLex (row.accessPath,row.weakness)))

def Finding.rank (finding : Finding F) : Lex (Fᵒᵈ × Lex (String × String)) :=
  toLex (OrderDual.toDual finding.rawPoints,toLex (finding.capability,finding.principalUnit))

def unitRows (rows : List (Row F)) (unit : String) : List (Row F) :=
  Sorted.sortBy Row.rank (rows.filter fun row => row.principalUnit = unit)

def aggregateUnit (rows : List (Row F)) (unit : String) : Option (Finding F) :=
  match unitRows rows unit with
  | [] => none
  | top :: rest => some (subsume fl top rest)

def aggregate (rows : List (Row F)) : List (Finding F) :=
  Sorted.sortBy Finding.rank ((Sorted.sortedSet (rows.map Row.principalUnit)).filterMap (aggregateUnit fl rows))

-- A row's figure at an entity, at the fraction before it is rounded.
structure Figure (F : Type) where
  usd : F
  fraction : F
  ceiling : Bool

def Figure.product (figure : Figure F) : F := fl.mul figure.usd figure.fraction

def Figure.share (figure : Figure F) : Share F := {usd:=figure.usd,fraction:=fl.round 6 figure.fraction}

def Row.figureAt (key : Entity) (row : Row F) : Option (Figure F) :=
  (lookup key row.valueByEntity).map fun held =>
      {usd:=held,fraction:=row.fractionAt fl key,ceiling:=decide (key ∈ row.entitiesPricedFromASheetCeiling)}

-- The figure that displaces the one kept, which is compared at its rounded fraction.
def Outbids (figure kept : Figure F) : Prop := fl.mul kept.usd (fl.round 6 kept.fraction) < figure.product fl

instance : DecidableRel (Outbids fl) := fun _ _ => inferInstanceAs (Decidable (_ < _))

def keptFigure (figures : List (Figure F)) : Option (Figure F) := figures.foldl (argAux (Outbids fl)) none

structure Keeps (key : Entity) (exclusive : Exclusive F) (kept : Option (Figure F)) : Prop where
  value : lookup key exclusive.values = kept.map (Figure.share fl)
  ceiling : key ∈ exclusive.ceilings ↔ kept.any Figure.ceiling = true

omit [LinearOrder F] in
theorem Keeps.start (key : Entity) : Keeps fl key {} none := ⟨rfl,by simp⟩

theorem offer_distinct (row : Row F) (exclusive : Exclusive F) (entry : Entity × F)
    (distinct : (exclusive.values.map fst).Nodup) :
    ((exclusive.offer fl row entry).values.map fst).Nodup := by
  unfold Exclusive.offer
  dsimp only
  split
  · exact Dict.put_nodup _ _ distinct
  · exact distinct

theorem offerRows_distinct (taken : List Entity) (rest : List (Row F)) :
    ((rest.foldl (Exclusive.offerRow fl taken) {}).values.map fst).Nodup := by
  refine List.foldlRecOn (motive:=fun (exclusive : Exclusive F) => (exclusive.values.map fst).Nodup) rest _ nodup_nil ?_
  intro exclusive distinct row _
  refine List.foldlRecOn (motive:=fun (exclusive : Exclusive F) => (exclusive.values.map fst).Nodup) _ _ distinct ?_
  intro exclusive distinct entry _
  exact offer_distinct fl row exclusive entry distinct

variable {fl}

theorem displaces_kept : argAux (Outbids fl) kept figure =
    if displaces fl figure.usd figure.fraction (kept.map (Figure.share fl)) then some figure else kept := by
  cases kept with
  | none => rfl
  | some kept =>
    by_cases outbid : Outbids fl figure kept
    · have displaced : displaces fl figure.usd figure.fraction ((some kept).map (Figure.share fl)) = true :=
        decide_eq_true outbid
      rw [displaced]
      exact if_pos outbid
    · have stays : displaces fl figure.usd figure.fraction ((some kept).map (Figure.share fl)) = false :=
        decide_eq_false outbid
      rw [stays]
      exact if_neg outbid

section
variable (keeps : Keeps fl key exclusive kept)
include keeps

theorem Keeps.offer_other
    (row : Row F) (entry : Entity × F) (other : entry.1 ≠ key) : Keeps fl key (exclusive.offer fl row entry) kept := by
  unfold Exclusive.offer
  dsimp only
  split
  · refine ⟨?_,?_⟩
    · rw [Dict.lookup_put,if_neg (Ne.symm other)]
      exact keeps.value
    · rw [← keeps.ceiling]
      split <;> simp [Ne.symm other]
  · exact keeps

theorem Keeps.offer_figure (row : Row F) (held : F) :
    Keeps fl key (exclusive.offer fl row (key,held)) (argAux (Outbids fl) kept
      {usd:=held,fraction:=row.fractionAt fl key,ceiling:=decide (key ∈ row.entitiesPricedFromASheetCeiling)}) := by
  unfold Exclusive.offer
  rw [displaces_kept,keeps.value]
  dsimp only
  split
  · refine ⟨?_,?_⟩
    · rw [Dict.lookup_put,if_pos rfl]
      rfl
    · split
      · rename_i priced
        simp [priced]
      · rename_i priced
        simp [priced]
  · exact keeps

theorem Keeps.offer_rest (entries : List (Entity × F)) (absent : key ∉ entries.map fst) :
    Keeps fl key (entries.foldl (.offer fl row) exclusive) kept := by
  induction entries generalizing exclusive with
  | nil => exact keeps
  | cons entry rest ih =>
    rw [map_cons,mem_cons,not_or] at absent
    exact ih (keeps.offer_other row entry (Ne.symm absent.1)) absent.2

theorem Keeps.offer_entries (entries : List (Entity × F)) (distinct : (entries.map fst).Nodup) :
    Keeps fl key (entries.foldl (.offer fl row) exclusive) (((lookup key entries).map fun held =>
      ({usd:=held,fraction:=row.fractionAt fl key,ceiling:=decide (key ∈ row.entitiesPricedFromASheetCeiling)} :
        Figure F)).toList.foldl
          (argAux (Outbids fl)) kept) := by
  induction entries generalizing exclusive with
  | nil => exact keeps
  | cons entry rest ih =>
    obtain ⟨present,held⟩ := entry
    rw [map_cons,nodup_cons] at distinct
    by_cases same : key = present
    · subst same
      rw [lookup_cons_self]
      exact (keeps.offer_figure row held).offer_rest rest distinct.1
    · rw [Dict.lookup_cons_ne same]
      exact ih (keeps.offer_other row (present,held) (Ne.symm same)) distinct.2

theorem Keeps.offerRow (free : key ∉ taken) (row : Row F) :
    Keeps fl key (exclusive.offerRow fl taken row) ((row.figureAt fl key).toList.foldl (argAux (Outbids fl)) kept) := by
  have distinct : ((row.valueByEntity.filter fun entry => entry.1 ∉ taken).map fst).Nodup :=
    row.distinct.sublist (filter_sublist.map fst)
  have unfiltered : lookup key (row.valueByEntity.filter fun entry => entry.1 ∉ taken) = lookup key row.valueByEntity :=
    by
    rw [Dict.lookup_filter row.distinct]
    cases lookup key row.valueByEntity with
    | none => rfl
    | some held => exact Option.filter_some_pos (decide_eq_true free)
  have offered := @Keeps.offer_entries F key exclusive kept _ fl keeps row _ distinct
  rw [unfiltered] at offered
  exact offered

theorem Keeps.offerRows (free : key ∉ taken) (rest : List (Row F)) :
    Keeps fl key (rest.foldl (.offerRow fl taken) exclusive)
      ((rest.filterMap (Row.figureAt fl key)).foldl (argAux (Outbids fl)) kept) := by
  induction rest generalizing exclusive kept with
  | nil => exact keeps
  | cons row rest ih =>
    have next := ih (keeps.offerRow free row)
    rw [filterMap_cons]
    cases figure : row.figureAt fl key with
    | none =>
      rw [figure] at next
      exact next
    | some figure' =>
      rw [figure] at next
      exact next

end

theorem subsume_keeps (free : key ∉ occupied top) (rest : List (Row F)) :
    lookup key (subsume fl top rest).subsumedExclusiveValueByEntity =
      (keptFigure fl (rest.filterMap (Row.figureAt fl key))).map (Figure.share fl) ∧
      (key ∈ (subsume fl top rest).subsumedExclusiveSheetCeilingEntities ↔
        (keptFigure fl (rest.filterMap (Row.figureAt fl key))).any Figure.ceiling = true) := by
  have keeps := (Keeps.start fl key).offerRows free rest
  have distinct := offerRows_distinct fl (occupied top) rest
  refine ⟨?_,?_⟩
  · exact (Dict.lookup_perm (Sorted.perm_sortBy fst _) distinct key).trans keeps.value
  · exact (Sorted.mem_sortedSet _ key).trans keeps.ceiling

end Psat.Scoring.Exposure
