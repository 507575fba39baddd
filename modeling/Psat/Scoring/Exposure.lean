import Mathlib.Algebra.Order.Ring.Rat
import Psat.Scoring.Subsume

namespace Psat.Scoring.Exposure
open Psat.General List

structure Claim (F : Type) where
  principalUnit : String
  capability : String
  fractionTaken : F

structure Ledger (F : Type) where
  claimed : List (Entity × F) := []
  claimedBy : List (Entity × List (Claim F)) := []

inductive Held (F : Type)
  | figure (usd fraction : F)
  | ceiling
  | unpriced

inductive Outcome (F : Type)
  | unpriced
  | ceilingExcluded
  | exhausted (claimedBy : List (Claim F))
  | charged (usd wanted taken : F) (claimedBy : List (Claim F))

structure Graded (F : Type) where
  finding : Finding F
  outcomes : List (Entity × Outcome F)

variable [LinearOrder F] (fl : Floats F)

def Row.own (row : Row F) (key : Entity) : Option F :=
  if key ∈ row.entitiesPricedFromASheetCeiling then none else List.lookup key row.valueByEntity

def Finding.held (finding : Finding F) (key : Entity) : Held F :=
  match finding.own key with
  | some usd => .figure usd (finding.fractionAt fl key)
  | none =>
    match List.lookup key finding.subsumedExclusiveValueByEntity with
    | some share =>
      if key ∈ finding.subsumedExclusiveSheetCeilingEntities then .ceiling else .figure share.usd share.fraction
    | none => if key ∈ finding.entitiesPricedFromASheetCeiling then .ceiling else .unpriced

def chargedEntities (finding : Finding F) : List Entity :=
  finding.reachEntities ++ (finding.subsumedExclusiveValueByEntity.map Prod.fst).filter (· ∉ finding.reachEntities)

def charge (finding : Finding F) (ledger : Ledger F) (key : Entity) : Outcome F × Ledger F :=
  match finding.held fl key with
  | .unpriced => (.unpriced,ledger)
  | .ceiling => (.ceilingExcluded,ledger)
  | .figure usd fraction =>
    let before := (List.lookup key ledger.claimed).getD fl.zero
    let claimants := (List.lookup key ledger.claimedBy).getD []
    let room := max fl.zero (fl.sub fl.one before)
    if room ≤ fl.zero then (.exhausted claimants,ledger)
    else
      let taken := min fraction room
      let claim : Claim F :=
        {principalUnit:=finding.principalUnit,capability:=finding.capability,fractionTaken:=fl.round 6 taken}
      (.charged usd fraction taken claimants,
          if fl.zero < taken then
            {claimed:=Dict.put key (fl.add before taken) ledger.claimed
             claimedBy:=Dict.put key (claimants ++ [claim]) ledger.claimedBy}
          else ledger)

def chargeAll (finding : Finding F) : List Entity → Ledger F → List (Entity × Outcome F) × Ledger F
  | [],ledger => ([],ledger)
  | key :: rest,ledger =>
    let (outcome,after) := charge fl finding ledger key
    let (outcomes,final) := chargeAll finding rest after
    ((key,outcome) :: outcomes,final)

def gradeFrom (ledger : Ledger F) : List (Finding F) → List (Graded F)
  | [] => []
  | finding :: rest =>
    let (outcomes,after) := chargeAll fl finding (chargedEntities finding) ledger
    {finding,outcomes} :: gradeFrom after rest

def grade (findings : List (Finding F)) : List (Graded F) := gradeFrom fl {} findings

namespace Graded

def exposureUsd (graded : Graded F) : Option F :=
  let shares := graded.outcomes.filterMap fun entry =>
    match entry.2 with
    | .charged usd _ taken _ => some (usd,taken)
    | _ => none
  if shares.isEmpty then none
  else some
    (fl.round 2 ((shares.filter fun share => fl.zero < share.2).foldl
      (fun mine share => fl.add mine (fl.mul share.2 share.1)) fl.zero))

def budgetExhaustedEntities (graded : Graded F) : List (Entity × List (Claim F)) :=
  graded.outcomes.filterMap fun entry =>
    match entry.2 with
    | .exhausted claimedBy => some (entry.1,claimedBy)
    | _ => none

def ceilingEntitiesExcludedFromExposure (graded : Graded F) : List Entity :=
  Sorted.sortBy id (graded.outcomes.filterMap fun entry =>
    match entry.2 with
    | .ceilingExcluded => some entry.1
    | _ => none)

omit [LinearOrder F] in
theorem mem_ceilingEntitiesExcluded {graded : Graded F} :
    key ∈ graded.ceilingEntitiesExcludedFromExposure ↔ (key,.ceilingExcluded) ∈ graded.outcomes := by
  unfold ceilingEntitiesExcludedFromExposure
  rw [Sorted.mem_sortBy,mem_filterMap]
  constructor
  · rintro ⟨⟨entity,outcome⟩,member,listed⟩
    cases outcome with
    | ceilingExcluded =>
      cases listed
      exact member
    | _ => cases listed
  · intro member
    exact ⟨_,member,rfl⟩

end Graded

variable {fl}

theorem chargeAll_outcome
    (charged : (key,outcome) ∈ (chargeAll fl finding ids ledger).1) :
    ∃ before, outcome = (charge fl finding before key).1 := by
  induction ids generalizing ledger with
  | nil => cases charged
  | cons first rest ih =>
    rcases mem_cons.mp charged with here | later
    · cases here
      exact ⟨ledger,rfl⟩
    · exact ih later

theorem chargeAll_covers (finding : Finding F) (keys : List Entity) (ledger : Ledger F) :
    (chargeAll fl finding keys ledger).1.map Prod.fst = keys := by
  induction keys generalizing ledger with
  | nil => rfl
  | cons first rest ih => exact congrArg (first :: ·) (ih _)

theorem gradeFrom_charged (member : graded ∈ gradeFrom fl ledger findings) :
    ∃ before, graded.outcomes = (chargeAll fl graded.finding (chargedEntities graded.finding) before).1 := by
  induction findings generalizing ledger with
  | nil => cases member
  | cons finding rest ih =>
    rcases mem_cons.mp member with here | later
    · rw [here]
      exact ⟨ledger,rfl⟩
    · exact ih later

theorem charge_ceiling (held : finding.held fl key = .ceiling) (ledger : Ledger F) :
    (charge fl finding ledger key).1 = .ceilingExcluded := by
  unfold charge
  rw [held]

theorem charge_unpriced (held : finding.held fl key = .unpriced) (ledger : Ledger F) :
    (charge fl finding ledger key).1 = .unpriced := by
  unfold charge
  rw [held]

theorem charge_figure (held : finding.held fl key = .figure usd fraction) (ledger : Ledger F) :
    (∃ claimedBy, (charge fl finding ledger key).1 = .exhausted claimedBy) ∨
      ∃ taken claimedBy, (charge fl finding ledger key).1 = .charged usd fraction taken claimedBy := by
  unfold charge
  rw [held]
  dsimp only
  split
  · exact .inl ⟨_,rfl⟩
  · exact .inr ⟨_,_,rfl⟩

def Row.WitnessedAt (row : Row F) (key : Entity) (usd : F) : Prop :=
  List.lookup key row.valueByEntity = some usd ∧ key ∉ row.entitiesPricedFromASheetCeiling

def Graded.ChargedOrSpent (fl : Floats F) (graded : Graded F) (rest : List (Row F)) (key : Entity) : Prop :=
  (∃ claimedBy, (key,.exhausted claimedBy) ∈ graded.outcomes) ∨
      ∃ row ∈ rest, ∃ usd taken claimedBy, row.WitnessedAt key usd ∧
        (key,.charged usd (fl.round 6 (row.fractionAt fl key)) taken claimedBy) ∈ graded.outcomes

section Subsumed
variable {top : Row F}

section
variable (unwitnessed : ∀ usd, ¬ top.WitnessedAt key usd)
include unwitnessed

omit [LinearOrder F] in
theorem free_of_unwitnessed : key ∉ occupied top := by
  intro taken
  obtain ⟨named,uncapped⟩ := mem_filter.mp taken
  cases found : List.lookup key top.valueByEntity with
  | none => exact (Dict.lookup_eq_none key _).mp found named
  | some usd => exact unwitnessed usd ⟨found,of_decide_eq_true uncapped⟩

omit [LinearOrder F] in
theorem own_of_unwitnessed : top.own key = none := by
  unfold Row.own
  split
  · rfl
  · rename_i uncapped
    cases found : List.lookup key top.valueByEntity with
    | none => rfl
    | some usd => exact absurd ⟨found,uncapped⟩ (unwitnessed usd)

theorem held_kept
    (kept : keptFigure fl (rest.filterMap (Row.figureAt fl key)) = some figure) :
    (subsume fl top rest).held fl key = if figure.ceiling then .ceiling else .figure figure.usd
    (fl.round 6 figure.fraction) := by
  obtain ⟨value,ceiling⟩ := @subsume_keeps F _ fl top key (free_of_unwitnessed unwitnessed) rest
  have own : (subsume fl top rest).own key = none := own_of_unwitnessed unwitnessed
  rw [kept,Option.map_some] at value
  rw [kept,Option.any_some] at ceiling
  unfold Finding.held
  rw [own,value]
  exact if_congr ceiling rfl rfl

theorem held_unkept (kept : keptFigure fl (rest.filterMap (Row.figureAt fl key)) = none) :
    (subsume fl top rest).held fl key = if key ∈ top.entitiesPricedFromASheetCeiling then .ceiling else .unpriced := by
  obtain ⟨value,_⟩ := @subsume_keeps F _ fl top key (free_of_unwitnessed unwitnessed) rest
  have own : (subsume fl top rest).own key = none := own_of_unwitnessed unwitnessed
  rw [kept,Option.map_none] at value
  unfold Finding.held
  rw [own,value]
  rfl

theorem kept_charged
    (kept : keptFigure fl (rest.filterMap (Row.figureAt fl key)) = some figure) : key ∈ chargedEntities
    (subsume fl top rest) := by
  obtain ⟨value,_⟩ := @subsume_keeps F _ fl top key (free_of_unwitnessed unwitnessed) rest
  rw [kept,Option.map_some] at value
  unfold chargedEntities
  rw [mem_append,mem_filter]
  by_cases reached : key ∈ (subsume fl top rest).reachEntities
  · exact .inl reached
  · exact .inr ⟨mem_map.mpr ⟨_,Dict.mem_of_lookup value,rfl⟩,decide_eq_true reached⟩

end

theorem chargedOrSpent_iff_kept {graded : Graded F} (unwitnessed : ∀ usd, ¬ top.WitnessedAt key usd)
    (keptMember : ∀ figure, keptFigure fl (rest.filterMap (Row.figureAt fl key)) = some figure →
      figure ∈ rest.filterMap (Row.figureAt fl key))
    (same : graded.finding = subsume fl top rest)
    (outcomes : graded.outcomes = (chargeAll fl graded.finding (chargedEntities graded.finding) ledger).1) :
    (graded.ChargedOrSpent fl rest key ∧ key ∉ graded.ceilingEntitiesExcludedFromExposure) ↔
      ∃ figure, keptFigure fl (rest.filterMap (Row.figureAt fl key)) = some figure ∧ figure.ceiling = false := by
  rw [same] at outcomes
  constructor
  · rintro ⟨law,_⟩
    -- Anything but a figure leaves neither a charge nor a spent budget.
    have figured : ∃ usd fraction, (subsume fl top rest).held fl key = .figure usd fraction := by
      have listed : ∃ outcome, (key,outcome) ∈ graded.outcomes ∧ outcome ≠ .ceilingExcluded ∧ outcome ≠ .unpriced := by
        rcases law with ⟨claimedBy,spent⟩ | ⟨_,_,_,_,_,_,charged⟩
        · exact ⟨_,spent,(by intro same; cases same),(by intro same; cases same)⟩
        · exact ⟨_,charged,(by intro same; cases same),(by intro same; cases same)⟩
      obtain ⟨outcome,member,notCeiling,notUnpriced⟩ := listed
      rw [outcomes] at member
      obtain ⟨before,given⟩ := chargeAll_outcome member
      cases held : (subsume fl top rest).held fl key with
      | figure usd fraction => exact ⟨usd,fraction,rfl⟩
      | ceiling => exact absurd (given.trans (charge_ceiling held before)) notCeiling
      | unpriced => exact absurd (given.trans (charge_unpriced held before)) notUnpriced
    obtain ⟨usd,fraction,held⟩ := figured
    cases kept : keptFigure fl (rest.filterMap (Row.figureAt fl key)) with
    | none =>
      rw [held_unkept unwitnessed kept] at held
      split at held <;> cases held
    | some figure =>
      rw [held_kept unwitnessed kept] at held
      cases ceiling : figure.ceiling with
      | false => exact ⟨figure,rfl,ceiling⟩
      | true =>
        rw [ceiling] at held
        cases held
  · rintro ⟨figure,kept,witnessed⟩
    have held := held_kept unwitnessed kept
    rw [witnessed] at held
    have listed := kept_charged unwitnessed kept
    rw [← chargeAll_covers (subsume fl top rest) (chargedEntities (subsume fl top rest)) ledger,
      ← outcomes,mem_map] at listed
    obtain ⟨⟨entity,outcome⟩,member,named⟩ := listed
    change entity = key at named
    rw [named] at member
    have given : ∀ outcome, (key,outcome) ∈ graded.outcomes → (∃ claimedBy, outcome = .exhausted claimedBy) ∨
      ∃ taken claimedBy, outcome = .charged figure.usd (fl.round 6 figure.fraction) taken claimedBy := by
      intro outcome member
      rw [outcomes] at member
      obtain ⟨before,same⟩ := chargeAll_outcome member
      rw [same]
      exact charge_figure held before
    refine ⟨?_,?_⟩
    · rcases given outcome member with ⟨claimedBy,spent⟩ | ⟨taken,claimedBy,charged⟩
      · rw [spent] at member
        exact .inl ⟨claimedBy,member⟩
      · rw [charged] at member
        obtain ⟨row,inside,found⟩ := mem_filterMap.mp (keptMember figure kept)
        obtain ⟨held,priced,same⟩ := Option.map_eq_some_iff.mp found
        subst same
        exact .inr ⟨row,inside,_,taken,claimedBy,⟨priced,of_decide_eq_false witnessed⟩,member⟩
    · rw [Graded.mem_ceilingEntitiesExcluded]
      intro excluded
      rcases given _ excluded with ⟨_,impossible⟩ | ⟨_,_,impossible⟩
      · cases impossible
      · cases impossible

end Subsumed

-- The figure that leads after the figures in their order: the first one, until a later one outbids it.
inductive Leads (fl : Floats F) : List (Figure F) → Figure F → Prop
  | first {figure : Figure F} : Leads fl [figure] figure
  | outbids {figures : List (Figure F)} {leader figure : Figure F} : Leads fl figures leader →
    Outbids fl figure leader → Leads fl (figures ++ [figure]) figure
  | stays {figures : List (Figure F)} {leader figure : Figure F} : Leads fl figures leader →
    ¬Outbids fl figure leader → Leads fl (figures ++ [figure]) leader

theorem Leads.mem (leads : Leads fl figures figure) : figure ∈ figures := by
  induction leads with
  | first => exact mem_cons_self
  | outbids _ _ _ => exact mem_append_right _ mem_cons_self
  | stays _ _ ih => exact mem_append_left _ ih

theorem Leads.kept (leads : Leads fl figures figure) : keptFigure fl figures = some figure := by
  induction leads with
  | first => rfl
  | outbids _ more ih =>
    rw [keptFigure,foldl_append,← keptFigure,ih]
    exact if_pos more
  | stays _ less ih =>
    rw [keptFigure,foldl_append,← keptFigure,ih]
    exact if_neg less

theorem kept_leads (kept : keptFigure fl figures = some figure) : Leads fl figures figure := by
  induction figures using List.reverseRecOn generalizing figure with
  | nil => cases kept
  | append_singleton figures last ih =>
    rw [keptFigure,foldl_append,← keptFigure] at kept
    cases best : keptFigure fl figures with
    | none =>
      have empty : figures = [] := by simpa [keptFigure] using best
      subst empty
      cases kept
      exact .first
    | some leader =>
      have leads := ih best
      rw [best] at kept
      by_cases outbids : Outbids fl last leader
      · rw [show foldl (argAux (Outbids fl)) (some leader) [last] = some last from if_pos outbids] at kept
        cases kept
        exact .outbids leads outbids
      · rw [show foldl (argAux (Outbids fl)) (some leader) [last] = some leader from if_neg outbids] at kept
        cases kept
        exact .stays leads outbids

theorem aggregate_unit (found : finding ∈ aggregate fl rows)
    (ordered : unitRows rows finding.principalUnit = top :: rest) : finding = subsume fl top rest := by
  rw [aggregate,Sorted.mem_sortBy,mem_filterMap] at found
  obtain ⟨unit,_,given⟩ := found
  unfold aggregateUnit at given
  split at given
  · cases given
  · rename_i first others rowsOf
    have inside : first ∈ unitRows rows unit := by rw [rowsOf]; exact mem_cons_self
    rw [unitRows,Sorted.mem_sortBy,mem_filter,decide_eq_true_eq] at inside
    cases given
    rw [show (subsume fl first others).principalUnit = unit from inside.2,rowsOf] at ordered
    cases ordered
    rfl

theorem gradeFrom_finding (member : graded ∈ gradeFrom fl ledger findings) : graded.finding ∈ findings := by
  induction findings generalizing ledger with
  | nil => cases member
  | cons finding rest ih =>
    rcases mem_cons.mp member with here | later
    · rw [here]
      exact mem_cons_self
    · exact mem_cons_of_mem _ (ih later)

theorem witnessed_figure_charged_iff (fl : Floats F) (rows : List (Row F)) (graded : Graded F)
    (top : Row F) (rest : List (Row F)) (key : Entity)
    (found : graded ∈ grade fl (aggregate fl rows)) (ordered : unitRows rows graded.finding.principalUnit = top :: rest)
    (unwitnessed : ∀ usd, ¬ top.WitnessedAt key usd) :
    (graded.ChargedOrSpent fl rest key ∧ key ∉ graded.ceilingEntitiesExcludedFromExposure) ↔
      ∃ figure, Leads fl (rest.filterMap (Row.figureAt fl key)) figure ∧ figure.ceiling = false := by
  obtain ⟨ledger,outcomes⟩ := gradeFrom_charged found
  have same := aggregate_unit (gradeFrom_finding found) ordered
  rw [chargedOrSpent_iff_kept unwitnessed (fun _ kept => (kept_leads kept).mem) same outcomes]
  exact exists_congr fun figure => and_congr_left' ⟨kept_leads,Leads.kept⟩

-- Exact decimals, a tie rounded to the even neighbour.
def decimals : Floats ℚ where
  zero := 0
  one := 1
  add := (· + ·)
  sub := (· - ·)
  mul := (· * ·)
  round digits value :=
    let scaled := value * 10 ^ digits
    let low := scaled.floor
    let above := scaled - low
    (if above < 1 / 2 ∨ above = 1 / 2 ∧ low % 2 = 0 then low else low + 1) / 10 ^ digits

def vaultRow (capability : String) (rawPoints usd : ℚ) (ceilings : List Entity) : Row ℚ where
  principalUnit := "0xu"
  capability := capability
  accessPath := "direct"
  severityProven := 1
  weakness := 1 / 2
  rawPoints := rawPoints
  reachEntities := ["0xv"]
  valueByEntity := [("0xv",usd)]
  distinct := by simp
  entitiesPricedFromASheetCeiling := ceilings

def vaultRows : List (Row ℚ) :=
  [vaultRow "upgrade" 9 5 ["0xv"],vaultRow "mint" 5 1000 [],vaultRow "pause" 3 100 ["0xv"]]

-- A witnessed thousand beside a ceiling of a hundred is charged.
theorem witnessed_thousand_charged : ∃ graded ∈ grade decimals (aggregate decimals vaultRows),
    graded.ChargedOrSpent decimals [vaultRow "mint" 5 1000 [],vaultRow "pause" 3 100 ["0xv"]] "0xv" ∧
      "0xv" ∉ graded.ceilingEntitiesExcludedFromExposure := by
  obtain ⟨graded,found⟩ : ∃ graded, graded ∈ grade decimals (aggregate decimals vaultRows) :=
    exists_mem_of_length_pos (by decide +kernel)
  have unit : ∀ graded ∈ grade decimals (aggregate decimals vaultRows), graded.finding.principalUnit = "0xu" :=
    by decide +kernel
  have ordered : unitRows vaultRows graded.finding.principalUnit =
    [vaultRow "upgrade" 9 5 ["0xv"],vaultRow "mint" 5 1000 [],vaultRow "pause" 3 100 ["0xv"]] := by
    have ranked : vaultRows.Pairwise fun a b => a.rank ≤ b.rank := by decide +kernel
    rw [unit graded found]
    exact ranked.insertionSort_eq
  have unwitnessed : ∀ usd, ¬ (vaultRow "upgrade" 9 5 ["0xv"]).WitnessedAt "0xv" usd :=
    fun usd witnessed => witnessed.2 mem_cons_self
  refine ⟨graded,found,
    (witnessed_figure_charged_iff decimals vaultRows graded _ _ "0xv" found ordered unwitnessed).mpr ?_⟩
  have under : ¬Outbids decimals ⟨100,1 * (1 / 2),true⟩ ⟨1000,1 * (1 / 2),false⟩ := by decide +kernel
  exact ⟨_,.stays .first under,rfl⟩

-- A ceiling of a thousand beside a witnessed hundred: nothing is charged.
theorem ceiling_displaces_witnessed : (vaultRow "mint" 5 100 []).WitnessedAt "0xv" 100 ∧
    (grade decimals
      (aggregate decimals [vaultRow "upgrade" 9 5 ["0xv"],vaultRow "mint" 5 100 [],
        vaultRow "pause" 3 1000 ["0xv"]])).map
        (fun graded => (graded.ceilingEntitiesExcludedFromExposure,graded.budgetExhaustedEntities.length,
          graded.exposureUsd decimals)) =
            [(["0xv"],0,none)] := by
  refine ⟨⟨rfl,by decide⟩,?_⟩
  decide +kernel

end Psat.Scoring.Exposure
