import Psat.Scoring.Subsume

namespace Psat.Scoring.Composed
open List Psat.General
open Psat.Scoring.Exposure (Entity)

inductive MagnitudeState
  | provenExact | provenFloor | provenUpperBound | provenCeiling
deriving DecidableEq

-- How much a state claims; a ceiling is not ranked and comes last.
def MagnitudeState.claim : MagnitudeState → Nat
  | .provenFloor => 1
  | .provenExact => 2
  | .provenUpperBound => 2
  | .provenCeiling => 4

-- `json` is what the step publishes, sorted, each value as its `repr`.
structure ActAsStep where
  callingSelector : Option String
  json : List (String ×ₗ String)
deriving DecidableEq

-- A candidate, tied with nothing; `rest` stands for the fields the order does not read.
structure ComposedMagnitude (F δ : Type) where
  usd : F
  witnessState : MagnitudeState
  selector : String
  function : String
  chain : List ActAsStep
  rest : δ
deriving DecidableEq

section
variable {F δ : Type} [LinearOrder F]

def composedOrder (entry : ComposedMagnitude F δ) :
    Fᵒᵈ ×ₗ Nat ×ₗ String ×ₗ String ×ₗ List String ×ₗ List (List (String ×ₗ String)) :=
  toLex (.toDual entry.usd,toLex (entry.witnessState.claim,toLex (entry.selector,toLex (entry.function,
    toLex (entry.chain.map (·.callingSelector.getD ""),entry.chain.map ActAsStep.json)))))

theorem usd_falls (first second : ComposedMagnitude F δ) (ordered : composedOrder first ≤ composedOrder second) :
    second.usd ≤ first.usd := OrderDual.toDual_le_toDual.mp (Prod.Lex.monotone_fst _ _ ordered)

-- The entry published, then what it is tied with.
def selectComposed (candidates : List (ComposedMagnitude F δ)) : List (ComposedMagnitude F δ) :=
  Sorted.selection composedOrder ComposedMagnitude.usd candidates

def select (candidates : List (Entity × List (ComposedMagnitude F δ))) : List (Entity × List (ComposedMagnitude F δ)) :=
  candidates.map fun entry => (entry.1,selectComposed entry.2)

variable [DecidableEq δ]

def poolComposed (into published : List (Entity × List (ComposedMagnitude F δ))) : List
    (Entity × List (ComposedMagnitude F δ)) :=
  published.foldl (fun into entry => Dict.put entry.1 (Ordered.insertKeys ((into.lookup entry.1).getD []) entry.2) into)
    into

theorem lookup_pool (entity : Entity) (into published : List (Entity × List (ComposedMagnitude F δ))) :
    ((poolComposed into published).lookup entity).getD [] =
      Ordered.insertKeys ((into.lookup entity).getD []) ((published.filter (·.1 = entity)).flatMap Prod.snd) := by
  induction published generalizing into with
  | nil => rfl
  | cons entry rest ih =>
    refine (ih _).trans ?_
    rw [Dict.lookup_put]
    by_cases here : entry.1 = entity
    · simp [here,Ordered.insertKeys_append]
    · simp [here,Ne.symm here]

theorem selected_in_calls_as_in_whole (calls : List (List (Entity × List (ComposedMagnitude F δ)))) (entity : Entity)
    (whole : List (ComposedMagnitude F δ)) (once : whole.Nodup)
    (same : ∀ entry, entry ∈ whole ↔ ∃ call ∈ calls, ∃ group, (entity,group) ∈ call ∧ entry ∈ group)
    (apart : ∀ first ∈ whole, ∀ second ∈ whole, composedOrder first = composedOrder second → first = second) :
    selectComposed ((((calls.map select).foldl poolComposed []).lookup entity).getD []) = selectComposed whole ∧
      (selectComposed whole).Nodup := by
  refine ⟨?_,Sorted.selection_nodup usd_falls once⟩
  have flat : (calls.map select).foldl poolComposed [] = poolComposed [] (select calls.flatten) := by
    rw [select,map_flatten]
    exact foldl_flatten.symm
  have groups : ((select calls.flatten).filter (·.1 = entity)).flatMap Prod.snd =
      ((calls.flatten.filter (·.1 = entity)).map Prod.snd).flatMap selectComposed := by
    rw [select,filter_map,flatMap_map,flatMap_map]
    rfl
  rw [flat,lookup_pool,groups]
  refine Sorted.selection_pooled usd_falls _ (once.map_on apart) fun entry => (same entry).trans ?_
  simp only [mem_map,mem_filter,mem_flatten,decide_eq_true_eq,Prod.exists]
  aesop

end

def sweep (selector : String) (usd : Nat) : ComposedMagnitude Nat Unit := ⟨usd,.provenFloor,selector,"sweep",[],()⟩

theorem vault_selected_in_calls :
    selectComposed ((((List.map select [[("vault",[sweep "0xc" 3,sweep "0xb" 5])],[("vault",[sweep "0xa" 5])]]).foldl
      poolComposed []).lookup "vault").getD []) = selectComposed [sweep "0xa" 5,sweep "0xb" 5,sweep "0xc" 3] :=
  (selected_in_calls_as_in_whole [[("vault",[sweep "0xc" 3,sweep "0xb" 5])],[("vault",[sweep "0xa" 5])]] "vault"
    [sweep "0xa" 5,sweep "0xb" 5,sweep "0xc" 3] (by decide) (by simp [or_comm]) (by decide)).1

end Psat.Scoring.Composed
