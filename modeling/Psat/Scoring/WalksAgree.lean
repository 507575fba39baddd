import Psat.Scoring.Reach

namespace Psat.Scoring.Reach
open Psat.General List
open Psat.General.Walks
open ControlEdge (anchor)
open List (lookup)

section
variable (closure : ControlClosure) (conditions : ConditionPlane) (grant : Option GateGrant)

def walks (edge : ControlEdge) : Bool := !isZeroKey edge.anchor && (hopBound edge conditions grant).isNone

def successors (key : String) : List String := ((closure.edgesFrom key).filter (walks conditions grant)).map anchor

def refuseEdge (refused : Refusals) (edge : ControlEdge) : Refusals :=
  if isZeroKey edge.anchor then refused
  else
    match hopBound edge conditions grant with
    | none => refused
    | some bound => refuse edge bound refused

def firstRefusal (pair : String × String) (edges : List ControlEdge) : Option HopBound :=
  edges.findSome? fun edge => if pair = (edge.principal,edge.anchor) ∧
    isZeroKey edge.anchor = false then hopBound edge conditions grant else none

end

theorem bfsEdge_breadth : (bfsEdge conditions grant key hop walk edge).toBreadth =
    if walks conditions grant edge then walk.toBreadth.discover hop edge.anchor else walk.toBreadth := by
  unfold bfsEdge walks Breadth.discover
  cases isZeroKey edge.anchor with
  | true => rfl
  | false =>
    cases hopBound edge conditions grant with
    | some bound => rfl
    | none => by_cases old : edge.anchor ∈ walk.known <;> simp [old]

section
variable (edges : List ControlEdge)

theorem bfs_breadth (key : String) (hop : Nat) (walk : Bfs) :
    (edges.foldl (bfsEdge conditions grant key hop) walk).toBreadth =
      ((edges.filter (walks conditions grant)).map anchor).foldl (.discover hop) walk.toBreadth := by
  induction edges generalizing walk with
  | nil => rfl
  | cons edge rest ih =>
    rw [foldl_cons,ih,bfsEdge_breadth,filter_cons]
    split <;> rfl

theorem bfs_refused (key : String) (hop : Nat) (walk : Bfs) :
    (edges.foldl (bfsEdge conditions grant key hop) walk).refused = edges.foldl
    (refuseEdge conditions grant) walk.refused := by
  induction edges generalizing walk with
  | nil => rfl
  | cons edge rest ih =>
    rw [foldl_cons,ih,foldl_cons]
    unfold bfsEdge refuseEdge
    cases isZeroKey edge.anchor with
    | true => rfl
    | false =>
      cases hopBound edge conditions grant with
      | some bound => rfl
      | none => by_cases old : edge.anchor ∈ walk.known <;> simp [old]

theorem closure_seen (walk : ClosureWalk) :
    (edges.foldl (closureEdge conditions grant) walk).seen = walk.seen := by
  induction edges generalizing walk with
  | nil => rfl
  | cons edge rest ih =>
    rw [foldl_cons,ih]
    unfold closureEdge
    split
    · rfl
    · split <;> rfl

theorem closure_stack (walk : ClosureWalk) : (edges.foldl (closureEdge conditions grant) walk).stack =
    ((edges.filter (walks conditions grant)).map anchor).foldl (Depth.push walk.seen) walk.stack := by
  induction edges generalizing walk with
  | nil => rfl
  | cons edge rest ih =>
    have same : (closureEdge conditions grant walk edge).seen = walk.seen := closure_seen [edge] walk
    rw [foldl_cons,ih,same,filter_cons]
    unfold closureEdge walks
    cases isZeroKey edge.anchor with
    | true => rfl
    | false => cases hopBound edge conditions grant <;> rfl

theorem closure_depth (walk : ClosureWalk) :
    (edges.foldl (closureEdge conditions grant) walk).toDepth =
      ⟨walk.seen,((edges.filter (walks conditions grant)).map anchor).foldl (Depth.push walk.seen) walk.stack⟩ :=
  congrArg₂ Depth.mk (closure_seen edges walk) (closure_stack edges walk)

theorem closure_withheld (walk : ClosureWalk) :
    (edges.foldl (closureEdge conditions grant) walk).withheld = edges.foldl
    (refuseEdge conditions grant) walk.withheld := by
  induction edges generalizing walk with
  | nil => rfl
  | cons edge rest ih =>
    rw [foldl_cons,ih,foldl_cons]
    unfold closureEdge refuseEdge
    cases isZeroKey edge.anchor with
    | true => rfl
    | false => cases hopBound edge conditions grant <;> rfl

end

theorem refuseEdge_lookup : lookup pair (refuseEdge conditions grant refused edge) = (lookup pair refused).or
    (if pair = (edge.principal,edge.anchor) ∧ isZeroKey edge.anchor = false then hopBound edge conditions grant
      else none) := by
  unfold refuseEdge refuse
  cases isZeroKey edge.anchor with
  | true => simp
  | false =>
    cases hopBound edge conditions grant with
    | none => simp
    | some bound => simp [Dict.lookup_setDefault]

theorem refused_lookup : lookup pair (edges.foldl (refuseEdge conditions grant) refused) =
    (lookup pair refused).or (firstRefusal conditions grant pair edges) := by
  induction edges generalizing refused with
  | nil => simp [firstRefusal]
  | cons edge rest ih =>
    rw [foldl_cons,ih,refuseEdge_lookup,Option.or_assoc]
    unfold firstRefusal
    rw [findSome?_cons]
    generalize (if pair = (edge.principal,edge.anchor) ∧ isZeroKey edge.anchor =
      false then hopBound edge conditions grant else none) = first
    cases first <;> rfl

theorem refused_nodup (edges : List ControlEdge) (refused : Refusals) (distinct : (refused.map Prod.fst).Nodup) :
    ((edges.foldl (refuseEdge conditions grant) refused).map Prod.fst).Nodup := by
  induction edges generalizing refused with
  | nil => exact distinct
  | cons edge rest ih =>
    apply ih
    unfold refuseEdge
    split
    · exact distinct
    · split
      · exact distinct
      · exact Dict.setDefault_nodup _ _ distinct

section Runs
variable {closure : ControlClosure}

theorem firstRefusal_other (differs : pair.1 ≠ key) : firstRefusal conditions grant pair
    (closure.edgesFrom key) = none := by
  rw [firstRefusal,findSome?_eq_none_iff]
  intro edge member
  have principal : edge.principal = key := by simpa using (mem_filter.mp member).2
  rw [if_neg]
  rintro ⟨rfl,_⟩
  exact differs principal

theorem refused_expand
    (held : ∀ pair, lookup pair refused = if pair.1 ∈ done then firstRefusal conditions grant pair
      (closure.edgesFrom pair.1) else none)
    (pair : String × String) : lookup pair ((closure.edgesFrom key).foldl (refuseEdge conditions grant) refused) =
      if pair.1 ∈ done ++ [key] then firstRefusal conditions grant pair (closure.edgesFrom pair.1) else none := by
  rw [refused_lookup,held]
  by_cases same : pair.1 = key
  · subst same
    by_cases old : pair.1 ∈ done
    · simp [old]
    · simp [old]
  · rw [firstRefusal_other same]
    simp [same]

structure Bfs.Sound (closure : ControlClosure) (conditions : ConditionPlane) (grant : Option GateGrant)
    (seeds : List String) (walk : Bfs)
    (done : List String) : Prop where
  level : Breadth.Level (seedKeys seeds) (successors closure conditions grant) 1 walk.toBreadth done
  distinct : (walk.refused.map Prod.fst).Nodup
  refusals : ∀ pair, lookup pair walk.refused =
    if pair.1 ∈ done then firstRefusal conditions grant pair (closure.edgesFrom pair.1) else none

theorem bfsRound_sound (walk next : Bfs) (sound : ∃ done, walk.Sound closure conditions grant seeds done)
    (round : bfsRound closure conditions grant walk = some next) :
    (∃ done, next.Sound closure conditions grant seeds done) ∧
      Breadth.rounds (closure.edges.map anchor) next.toBreadth <
        Breadth.rounds (closure.edges.map anchor) walk.toBreadth := by
  obtain ⟨done,sound⟩ := sound
  unfold bfsRound at round
  split at round
  · cases round
  · rename_i key rest queue
    cases round
    have anchors : successors closure conditions grant key ⊆ closure.edges.map anchor := by
      intro other inside
      obtain ⟨edge,member,rfl⟩ := mem_map.mp inside
      exact mem_map_of_mem (mem_of_mem_filter (mem_of_mem_filter member))
    refine ⟨⟨done ++ [key],?_,?_,?_⟩,?_⟩
    · rw [bfs_breadth]
      exact sound.level.visit queue
    · rw [bfs_refused]
      exact refused_nodup _ _ sound.distinct
    · rw [bfs_refused]
      exact refused_expand sound.refusals
    · rw [bfs_breadth]
      exact @Breadth.rounds_visit _ _ (successors closure conditions grant) _ _ walk.toBreadth _ _ queue anchors

theorem seedKeys_nodup (seeds : List String) : (seedKeys seeds).Nodup := (Sorted.sortedSet_nodup seeds).filter _

theorem bfsWalk_sound (closure : ControlClosure) (conditions : ConditionPlane) (grant : Option GateGrant)
    (seeds : List String) :
    ∃ done, (bfsWalk closure conditions grant seeds).Sound closure conditions grant seeds done ∧
      (bfsWalk closure conditions grant seeds).queue = [] := by
  have start : ∃ done, Bfs.Sound closure conditions grant seeds
    {dist:=(seedKeys seeds).map fun key => (key,1),queue:=seedKeys seeds} done :=
    ⟨[],Breadth.Level.start 1 (seedKeys_nodup seeds),nodup_nil,by simp⟩
  have bounded : Breadth.rounds (closure.edges.map anchor) (Breadth.start 1 (seedKeys seeds)) ≤
    (seedKeys seeds).length + closure.edges.length := by
    have fewer := length_filter_le (· ∉ (Breadth.start 1 (seedKeys seeds)).known) (closure.edges.map anchor)
    rw [length_map] at fewer
    exact Nat.add_le_add_left fewer _
  obtain ⟨⟨done,sound⟩,ended⟩ :=
    Loop.run_ends (fun walk : Bfs => ∃ done, walk.Sound closure conditions grant seeds done)
    (fun walk => Breadth.rounds (closure.edges.map anchor) walk.toBreadth) bfsRound_sound _ _ start bounded
  refine ⟨done,sound,?_⟩
  unfold bfsRound at ended
  split at ended
  · assumption
  · cases ended

structure ClosureWalk.Sound (closure : ControlClosure) (conditions : ConditionPlane) (grant : Option GateGrant)
    (seeds : List String)
    (walk : ClosureWalk) : Prop where
  covers : Depth.Covers (seedKeys seeds) (successors closure conditions grant) walk.toDepth
  distinct : (walk.withheld.map Prod.fst).Nodup
  refusals : ∀ pair, lookup pair walk.withheld =
    if pair.1 ∈ walk.seen then firstRefusal conditions grant pair (closure.edgesFrom pair.1) else none

-- What is stacked, and the edges of what is not yet seen.
def ClosureWalk.rounds (closure : ControlClosure) (walk : ClosureWalk) : Nat :=
  walk.stack.length + (closure.edges.filter (·.principal ∉ walk.seen)).length

theorem edgesFrom_unseen (new : key ∉ seen) :
    (closure.edges.filter (·.principal ∉ key :: seen)).length + (closure.edgesFrom key).length =
    (closure.edges.filter (·.principal ∉ seen)).length := by
  have both := (filter_append_perm (fun edge : ControlEdge => decide (edge.principal = key))
    (closure.edges.filter (·.principal ∉ seen))).length_eq
  have here : (closure.edges.filter (·.principal ∉ seen)).filter (fun edge => decide (edge.principal = key)) =
    closure.edgesFrom key := by
    rw [filter_filter]
    apply filter_congr
    intro edge _
    by_cases same : edge.principal = key
    · simp [same,new]
    · simp [same]
  have others : (closure.edges.filter (·.principal ∉ seen)).filter (fun edge => !decide (edge.principal = key)) =
    closure.edges.filter (·.principal ∉ key :: seen) := by
    simp
  rw [length_append,here,others] at both
  omega

theorem closureRound_sound (walk next : ClosureWalk) (sound : walk.Sound closure conditions grant seeds)
    (round : closureRound closure conditions grant walk = some next) :
    next.Sound closure conditions grant seeds ∧ next.rounds closure < walk.rounds closure := by
  unfold closureRound at round
  split at round
  · cases round
  · rename_i key rest stack
    have moved := sound.covers.visit stack
    unfold Depth.visit at moved
    split at round
    · rename_i old
      rw [if_pos old] at moved
      cases round
      refine ⟨⟨moved,sound.distinct,sound.refusals⟩,?_⟩
      simp only [ClosureWalk.rounds,stack,length_cons]
      omega
    · rename_i new
      rw [if_neg new] at moved
      cases round
      have seen := @closure_seen (closure.edgesFrom key) conditions grant {walk with seen:=key :: walk.seen,stack:=rest}
      have pushed := @closure_stack (closure.edgesFrom key) conditions grant
        {walk with seen:=key :: walk.seen,stack:=rest}
      refine ⟨⟨?_,?_,?_⟩,?_⟩
      · rw [closure_depth]
        exact moved
      · rw [closure_withheld]
        exact refused_nodup _ _ sound.distinct
      · intro pair
        rw [closure_withheld,refused_expand sound.refusals,seen]
        simp [or_comm]
      · have fewer := Depth.push_length (key :: walk.seen) (successors closure conditions grant key) rest
        have kept : (successors closure conditions grant key).length ≤ (closure.edgesFrom key).length := by
          rw [successors,length_map]
          exact length_filter_le _ _
        have parted := @edgesFrom_unseen closure walk.seen key new
        rw [ClosureWalk.rounds,ClosureWalk.rounds,seen,pushed,stack,length_cons]
        dsimp only
        unfold successors at fewer kept
        omega

theorem closureWalk_sound (closure : ControlClosure) (conditions : ConditionPlane) (grant : Option GateGrant)
    (seeds : List String) :
    (closureWalk closure conditions grant seeds).Sound closure conditions grant seeds ∧
      (closureWalk closure conditions grant seeds).stack = [] := by
  have start : ClosureWalk.Sound closure conditions grant seeds {seen:=[],stack:=(seedKeys seeds).reverse} := by
    refine ⟨⟨?_,?_,?_⟩,nodup_nil,by simp⟩
    · rintro key (seen | waiting)
      · cases seen
      · exact ⟨0,.seed (mem_reverse.mp waiting)⟩
    · intro key member
      exact .inr (mem_reverse.mpr member)
    · intro key seen
      cases seen
  have bounded : ClosureWalk.rounds closure {seen:=[],stack:=(seedKeys seeds).reverse} ≤
    (seedKeys seeds).length + closure.edges.length := by
    rw [ClosureWalk.rounds,length_reverse]
    exact Nat.add_le_add_left (length_filter_le _ _) _
  obtain ⟨sound,ended⟩ := Loop.run_ends (fun walk : ClosureWalk => walk.Sound closure conditions grant seeds)
    (ClosureWalk.rounds closure) closureRound_sound _ _ start bounded
  refine ⟨sound,?_⟩
  unfold closureRound at ended
  split at ended
  · assumption
  · split at ended <;> cases ended

end Runs

theorem gaps_eq (distinct : (refused.map Prod.fst).Nodup)
    (once : (withheld.map Prod.fst).Nodup) (same : ∀ pair, lookup pair refused = lookup pair withheld)
    (agree : ∀ key, key ∈ reached ↔ key ∈ seen) : gaps refused reached = gaps withheld seen := by
  have sorted : Sorted.sortBy (fun entry : (String × String) × HopBound => (toLex entry.1 : String ×ₗ String)) refused =
    Sorted.sortBy (fun entry => (toLex entry.1 : String ×ₗ String)) withheld := by
    apply Sorted.sortBy_congr
    · exact List.Nodup.of_map _ distinct
    · exact once
    · rintro ⟨pair,bound⟩
      rw [Dict.mem_iff_lookup distinct,Dict.mem_iff_lookup once,same]
  unfold gaps
  rw [sorted]
  simp [agree]

-- Both walks reach the same keys and leave the same gaps; hops are shortest ways.
theorem reach_walks_agree (closure : ControlClosure) (conditions : ConditionPlane) (grant : Option GateGrant)
    (seeds : List String) :
    (∀ key, key ∈ (bfs closure conditions grant seeds).1.map Prod.fst ↔
      key ∈ (foldClosure closure conditions grant seeds).1) ∧
    (bfs closure conditions grant seeds).2.2 = (foldClosure closure conditions grant seeds).2.1 ∧
    ∀ key hop, lookup key (bfs closure conditions grant seeds).1 = some hop ↔ ∃ n, hop = 1 + n ∧
      Hops (seedKeys seeds) (successors closure conditions grant) n key ∧
        ∀ m, Hops (seedKeys seeds) (successors closure conditions grant) m key → n ≤ m := by
  obtain ⟨done,breadth,drained⟩ := bfsWalk_sound closure conditions grant seeds
  obtain ⟨depth,emptied⟩ := closureWalk_sound closure conditions grant seeds
  have exact_ := breadth.level.exact drained
  have known : (bfsWalk closure conditions grant seeds).known = done := by
    rw [breadth.level.parted,drained,append_nil]
  have agree : ∀ key, key ∈ (bfsWalk closure conditions grant seeds).known ↔
    key ∈ (closureWalk closure conditions grant seeds).seen := by
    intro key
    rw [depth.covers.exact emptied,Breadth.known_iff]
    constructor
    · rintro ⟨hop,present⟩
      obtain ⟨n,_,reached,_⟩ := (exact_ key hop).mp present
      exact ⟨n,reached⟩
    · rintro ⟨n,reached⟩
      obtain ⟨hop,present,_⟩ := breadth.level.shortest drained n key reached
      exact ⟨hop,present⟩
  refine ⟨agree,?_,exact_⟩
  apply gaps_eq breadth.distinct depth.distinct _ agree
  intro pair
  rw [breadth.refusals,depth.refusals]
  have same : pair.1 ∈ done ↔ pair.1 ∈ (closureWalk closure conditions grant seeds).seen := known ▸ agree pair.1
  simp only [same]

def openPlane : ConditionPlane := ⟨fun _ _ => {walked:=true,basis:="",surface:="none",functionsConsulted:=0}⟩

-- A seed is reached over no edge at all and recorded at hop 1.
theorem seed_hop_one : lookup "1::vault" (bfs {} openPlane none ["1::vault"]).1 = some 1 ∧
    Hops (seedKeys ["1::vault"]) (successors {} openPlane none) 0 "1::vault" := by
  have seeds : seedKeys ["1::vault"] = ["1::vault"] := by decide
  refine ⟨?_,.seed (by rw [seeds]; exact mem_singleton.mpr rfl)⟩
  simp [bfs,bfsWalk,seeds,Loop.run,bfsRound,ControlClosure.edgesFrom]

end Psat.Scoring.Reach
