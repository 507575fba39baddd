import Mathlib.Algebra.GroupWithZero.Nat
import Mathlib.Data.List.Basic
import Mathlib.Order.Lattice

namespace Psat.General.Bisect
open List

structure Range where
  lo : Int
  hi : Int
deriving DecidableEq

def Range.span (range : Range) : Int := range.hi - range.lo + 1

def Range.middle (range : Range) : Int := range.lo + range.span / 2 - 1

-- Consecutive non-empty ranges from `start` up to the block before `stop`.
def Chained : Int → List Range → Int → Prop
  | start, [], stop => start = stop
  | start, range :: rest, stop => range.lo = start ∧ start ≤ range.hi ∧ Chained (range.hi + 1) rest stop

def windows (size : Int) (positive : 0 < size) (start last : Int) : List Range :=
  if start ≤ last then ⟨start,min last (start + size - 1)⟩ :: windows size positive
    (min last (start + size - 1) + 1) last else []
termination_by (last + 1 - start).toNat

-- The requests that the ranges of a stack can still cost.
def weight (pending : List (Range × β)) : Nat := (pending.map fun item => 2 * (item.1.hi - item.1.lo).toNat + 1).sum

inductive Step (σ β ε π : Type)
  | raised (error : ε)
  | split (state : σ) (mark : β)
  | accepted (state : σ) (page : π)

-- How one range is answered; only a range of two blocks or more is split.
structure Bisection (σ β ε π : Type) where
  step : σ → Range → β → Step σ β ε π
  wide : ∀ {state range mark later onward}, step state range mark = .split later onward → 1 < range.span

structure Drained (σ ε π : Type) where
  pages : List (Range × π)
  requests : Nat
  outcome : Except ε σ

theorem weight_halves {range : Range} (wide : 1 < range.span) (mark onward : β) (rest : List (Range × β)) :
    weight ((⟨range.lo,range.middle⟩,onward) :: (⟨range.middle + 1,range.hi⟩,onward) :: rest) < weight
    ((range,mark) :: rest) := by
  simp only [weight,map_cons,sum_cons,Range.middle,Range.span] at wide ⊢
  omega

def Drained.after (more : Drained σ ε π) (pages : List (Range × π)) : Drained σ ε π :=
  {more with pages:=pages ++ more.pages,requests:=more.requests + 1}

def Bisection.drain (bisection : Bisection σ β ε π) : σ → List (Range × β) → Drained σ ε π
  | state, [] => ⟨[],0,.ok state⟩
  | state, (range,mark) :: rest =>
    match taken : bisection.step state range mark with
    | .raised error => ⟨[],1,.error error⟩
    | .split later onward =>
      (bisection.drain later ((⟨range.lo,range.middle⟩,onward) :: (⟨range.middle + 1,range.hi⟩,onward) :: rest)).after
        []
    | .accepted later page => (bisection.drain later rest).after [(range,page)]
termination_by _ pending => weight pending
decreasing_by
  · exact weight_halves (bisection.wide taken) mark onward rest
  · simp only [weight,map_cons,sum_cons]
    omega

theorem windows_chained (size : Int) (positive : 0 < size) (start last : Int) :
    Chained start (windows size positive start last) (max start (last + 1)) := by
  fun_induction windows size positive start last with
  | case1 start more ih =>
    refine ⟨rfl,le_min more (by omega),?_⟩
    have same : max start (last + 1) = max (min last (start + size - 1) + 1) (last + 1) := by omega
    rw [same]
    exact ih
  | case2 start past => exact (max_eq_left (by omega)).symm

section
variable (chained : Chained start spans stop)
include chained

theorem Chained.weight_le (mark : β) :
    start ≤ stop ∧ weight (spans.map fun range => (range,mark)) ≤ 2 * (stop - start).toNat := by
  induction spans generalizing start with
  | nil =>
    cases chained
    exact ⟨Int.le_refl _,Nat.zero_le _⟩
  | cons range rest ih =>
    obtain ⟨rfl,some,later⟩ := chained
    have more := ih later
    simp only [weight,map_cons,sum_cons] at more ⊢
    omega

theorem Chained.le : start ≤ stop := (chained.weight_le ()).1

theorem Chained.disjoint :
    (∀ range ∈ spans, start ≤ range.lo) ∧ spans.Pairwise fun earlier later => earlier.hi < later.lo := by
  induction spans generalizing start with
  | nil => exact ⟨fun _ member => absurd member not_mem_nil,.nil⟩
  | cons range rest ih =>
    obtain ⟨rfl,some,later⟩ := chained
    obtain ⟨above,apart⟩ := ih later
    refine ⟨fun other member => ?_,pairwise_cons.mpr
      ⟨fun other member => Int.lt_of_add_one_le (above other member),apart⟩⟩
    rcases mem_cons.mp member with rfl | member
    · exact Int.le_refl _
    · exact Int.le_trans (by omega) (above other member)

theorem Chained.covers (low : start ≤ block) (high : block < stop) :
    ∃ range ∈ spans, range.lo ≤ block ∧ block ≤ range.hi := by
  induction spans generalizing start with
  | nil =>
    cases chained
    omega
  | cons range rest ih =>
    obtain ⟨rfl,some,later⟩ := chained
    by_cases here : block ≤ range.hi
    · exact ⟨range,mem_cons_self,low,here⟩
    · obtain ⟨other,member,inside⟩ := ih later (by omega)
      exact ⟨other,mem_cons_of_mem _ member,inside⟩

end

theorem Chained.halve {range : Range} (chained : Chained start (range :: spans) stop) (wide : 1 < range.span) :
    Chained start (⟨range.lo,range.middle⟩ :: ⟨range.middle + 1,range.hi⟩ :: spans) stop := by
  obtain ⟨rfl,_,later⟩ := chained
  unfold Range.span at wide
  unfold Range.middle Range.span
  exact ⟨rfl,by simp only; omega,rfl,by simp only; omega,later⟩

section Drains
variable (bisection : Bisection σ β ε π)

-- The pages are the first part of the ranges asked for, all of it at the end.
theorem drain_chained (state : σ) (pending : List (Range × β)) (chained : Chained start (pending.map Prod.fst) stop) :
    (bisection.drain state pending).requests ≤ weight pending ∧ ∃ reached, reached ≤ stop ∧
      Chained start ((bisection.drain state pending).pages.map Prod.fst) reached ∧
      ∀ final, (bisection.drain state pending).outcome = .ok final → reached = stop := by
  fun_induction Bisection.drain bisection state pending generalizing start with
  | case1 state => exact ⟨Nat.zero_le _,start,chained.le,rfl,fun _ _ => chained⟩
  | case2 state range mark rest error taken =>
    refine ⟨?_,start,chained.le,rfl,fun _ ended => by cases ended⟩
    simp only [weight,map_cons,sum_cons]
    omega
  | case3 state range mark rest later onward taken ih =>
    have wide := bisection.wide taken
    obtain ⟨few,found⟩ := ih (chained.halve wide)
    exact ⟨Nat.lt_of_le_of_lt few (weight_halves wide mark onward rest),found⟩
  | case4 state range mark rest later page taken ih =>
    obtain ⟨rfl,some,onward⟩ := chained
    obtain ⟨few,reached,within,pages,ended⟩ := ih onward
    refine ⟨?_,reached,within,⟨rfl,some,pages⟩,ended⟩
    simp only [weight,map_cons,sum_cons,Drained.after] at few ⊢
    omega

-- Consecutive disjoint pages from the first block on, without a gap, and up to
-- the last block unless something was raised.
def GapFree (first last : Int) (drained : Drained σ ε π) : Prop :=
  ∃ reached, reached ≤ max first (last + 1) ∧ Chained first (drained.pages.map Prod.fst) reached ∧
    (drained.pages.map Prod.fst).Pairwise (fun earlier later => earlier.hi < later.lo) ∧
    (∀ block, first ≤ block → block < reached → ∃ range ∈ drained.pages.map Prod.fst, range.lo ≤ block ∧
      block ≤ range.hi) ∧
    ∀ final, drained.outcome = .ok final → reached = max first (last + 1)

theorem gapFree_raised (first last : Int) (requests : Nat) (error : ε) : GapFree first last
    (⟨[],requests,.error error⟩ : Drained σ ε π) :=
  ⟨first,le_max_left _ _,rfl,.nil,fun _ low high => absurd high (Int.not_lt.mpr low),fun _ ended => by cases ended⟩

theorem drain_gapFree (size : Int) (positive : 0 < size) (first last : Int) (state : σ) (mark : β) :
    GapFree first last (bisection.drain state ((windows size positive first last).map fun window => (window,mark))) ∧
    (bisection.drain state ((windows size positive first last).map fun window => (window,mark))).requests ≤ 2 *
    (last + 1 - first).toNat := by
  have chained := windows_chained size positive first last
  have asked : ((windows size positive first last).map fun window => (window,mark)).map Prod.fst =
    windows size positive first last := by
    rw [map_map]
    exact map_id _
  have light := (chained.weight_le mark).2
  rw [← asked] at chained
  obtain ⟨few,reached,within,pages,ended⟩ := drain_chained bisection state _ chained
  exact ⟨⟨reached,within,pages,pages.disjoint.2,fun _ => pages.covers,ended⟩,by omega⟩

end Drains

end Psat.General.Bisect
