import Psat.Scoring.Subsume

namespace Psat.Scoring.RowValue
open List Psat.General
open Psat.Scoring.Exposure (Entity)

inductive CeilingKind
  | composedExtraction | sheet
deriving DecidableEq

-- The figure standing at each entity, which ceiling it is, and where it is proven not attribution-derived.
structure Standing (F : Type) where
  perEntity : List (Entity × F) := []
  ceilings : List (Entity × CeilingKind) := []
  nonAttributed : List Entity := []

structure Offer (F : Type) where
  entity : Entity
  figure : F
  ceiling : Option CeilingKind
  nonAttributed : Bool
deriving DecidableEq

-- A call of the row; its contributions are empty where the row passes it over.
structure Instance (F : Type) where
  deploymentAddress : String
  functionName : String
  contributions : Standing F

section
variable {F : Type}

def Standing.offers (contributions : Standing F) : List (Offer F) :=
  contributions.perEntity.map fun entry =>
    ⟨entry.1,entry.2,contributions.ceilings.lookup entry.1,decide (entry.1 ∈ contributions.nonAttributed)⟩

variable [LinearOrder F]

def Standing.raise (standing : Standing F) (offer : Offer F) : Standing F :=
  if (standing.perEntity.lookup offer.entity).all (· < offer.figure) then
    {perEntity:=Dict.put offer.entity offer.figure standing.perEntity
     ceilings:=standing.ceilings.filter (·.1 ≠ offer.entity)
     nonAttributed:=standing.nonAttributed.filter (· ≠ offer.entity)}
  else standing

def Standing.take (standing : Standing F) (offer : Offer F) : Standing F :=
  let raised := standing.raise offer
  if (raised.perEntity.lookup offer.entity).all (· ≤ offer.figure) then
    {raised with
     ceilings:=offer.ceiling.elim raised.ceilings (Dict.put offer.entity · raised.ceilings)
     nonAttributed:=if offer.nonAttributed then Ordered.insertKey raised.nonAttributed offer.entity
       else raised.nonAttributed.filter (· ≠ offer.entity)}
  else raised

-- The first loop of `_instance_contributions`: the figures of the reached keys, as they fold onto entities.
def perKey (offers : List (Offer F)) : Standing F := offers.foldl Standing.take {}

def instanceOrder (row : Instance F) : String ×ₗ String := toLex (row.deploymentAddress,row.functionName)

def rowOffers (instances : List (Instance F)) : List (Offer F) :=
  (Sorted.sortBy instanceOrder instances).flatMap (·.contributions.offers)

def rowValue (instances : List (Instance F)) : Standing F := (rowOffers instances).foldl Standing.take {}

def Standing.view (standing : Standing F) (key : Entity) : Option F × Bool :=
  (standing.perEntity.lookup key,decide (key ∈ standing.nonAttributed))

def outdo (held : Option F × Bool) (offer : Offer F) : Option F × Bool :=
  if held.1.all (· ≤ offer.figure) then (some offer.figure,offer.nonAttributed) else held

theorem view_take_same (standing : Standing F) (offer : Offer F) :
    (standing.take offer).view offer.entity = outdo (standing.view offer.entity) offer := by
  unfold outdo Standing.view Standing.take Standing.raise
  cases held : standing.perEntity.lookup offer.entity with
  | none => cases offer.nonAttributed <;> simp [Dict.lookup_put,Ordered.mem_insertKey]
  | some old =>
    rcases lt_trichotomy old offer.figure with below | equal | above
    · cases offer.nonAttributed <;> simp [Dict.lookup_put,Ordered.mem_insertKey,below,below.le]
    · cases offer.nonAttributed <;> simp [Ordered.mem_insertKey,held,equal]
    · simp [held,above.not_ge,above.not_gt]

theorem view_take_other (standing : Standing F) (differs : key ≠ offer.entity) :
    (standing.take offer).view key = standing.view key := by
  have raised : (standing.raise offer).view key = standing.view key := by
    unfold Standing.raise
    split <;> simp [Standing.view,Dict.lookup_put,differs]
  rw [← raised]
  unfold Standing.take
  dsimp only
  split
  · unfold Standing.view
    cases offer.nonAttributed <;> simp [Ordered.mem_insertKey,differs]
  · rfl

theorem view_takes (key : Entity) (offers : List (Offer F)) (standing : Standing F) :
    (offers.foldl Standing.take standing).view key = (offers.filter (·.entity = key)).foldl outdo (standing.view key) :=
    by
  induction offers generalizing standing with
  | nil => rfl
  | cons offer rest ih =>
    rw [foldl_cons,ih]
    by_cases same : offer.entity = key
    · subst same
      simp [view_take_same]
    · simp [same,view_take_other standing (Ne.symm same)]

-- The last of the largest figures stands, with its flag.
theorem fold_outdo (offers : List (Offer F)) : offers.foldl outdo (none,false) =
    (offers.reverse.argmax Offer.figure).elim (none,false) fun last => (some last.figure,last.nonAttributed) := by
  induction offers using List.reverseRecOn with
  | nil => rfl
  | append_singleton offers offer ih =>
    rw [foldl_append,ih,reverse_append,reverse_singleton,singleton_append,argmax_cons]
    cases offers.reverse.argmax Offer.figure with
    | none => rfl
    | some last => by_cases under : offer.figure < last.figure <;> simp [outdo,under]

-- What the row's calls contribute at one entity, in the order they are taken.
def offersAt (instances : List (Instance F)) (key : Entity) : List (Offer F) :=
  (rowOffers instances).filter (·.entity = key)

def Largest (offers : List (Offer F)) (offer : Offer F) : Prop :=
  offer ∈ offers ∧ ∀ other ∈ offers, other.figure ≤ offer.figure

theorem flagged_iff (instances : List (Instance F)) (key : Entity) : key ∈ (rowValue instances).nonAttributed ↔
    ∃ last ∈ (offersAt instances key).reverse.argmax Offer.figure, last.nonAttributed = true := by
  have flag : decide (key ∈ (rowValue instances).nonAttributed) = _ :=
    congrArg Prod.snd ((view_takes key (rowOffers instances) {}).trans (fold_outdo _))
  rw [← decide_eq_true_eq (p:=key ∈ _),flag]
  unfold offersAt
  cases ((rowOffers instances).filter (·.entity = key)).reverse.argmax Offer.figure <;> simp

theorem flag_exact_iff (instances : List (Instance F)) (key : Entity) :
    (key ∈ (rowValue instances).nonAttributed ↔ ∀ offer, Largest (offersAt instances key) offer →
      offer.nonAttributed = true) ↔
    ∃ last ∈ (offersAt instances key).reverse.argmax Offer.figure, last.nonAttributed = true →
      ∀ offer, Largest (offersAt instances key) offer → offer.nonAttributed = true := by
  rw [flagged_iff]
  cases found : (offersAt instances key).reverse.argmax Offer.figure with
  | none =>
    rw [argmax_eq_none,reverse_eq_nil_iff] at found
    simp [found,Largest]
  | some last =>
    have most : Largest (offersAt instances key) last :=
      ⟨mem_reverse.mp (argmax_mem found),fun other member => le_of_mem_argmax (mem_reverse.mpr member) found⟩
    simp only [Option.mem_some_iff,exists_eq_left']
    exact ⟨fun same => same.mp,fun all => ⟨all,fun each => each last most⟩⟩

end

def call (name : String) (nonAttributed : Bool) : Instance Nat := ⟨"0xv",name,perKey [⟨"vault",100,none,nonAttributed⟩]⟩

-- The second call ties the attribution-derived figure of the first.
theorem later_tie_marks_row : "vault" ∈ (rowValue [call "pull" false,call "sweep" true]).nonAttributed ∧
    ∃ offer, Largest (offersAt [call "pull" false,call "sweep" true] "vault") offer ∧ offer.nonAttributed = false :=
  ⟨by decide +kernel,⟨"vault",100,none,false⟩,⟨by decide +kernel,by decide +kernel⟩,rfl⟩

end Psat.Scoring.RowValue
