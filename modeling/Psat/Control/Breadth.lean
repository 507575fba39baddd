import Psat.Control.Projection

namespace Psat.Control
open Psat.General
open Psat.General.Levels (Meeting Walk note take)
open Levels (Below Kept enqueue lower mem_nextOf start_kept)

theorem lookup_ensureNode (nodes : Nodes) (address other : Address) (payload : Node) :
    (ensureNode nodes address payload).lookup other =
    if other = address then some ((nodes.lookup address).elim payload (mergeNode · payload)) else nodes.lookup other :=
    by
  unfold ensureNode
  cases nodes.lookup address with
  | none => exact Dict.lookup_put _ _ _ _
  | some current => exact Dict.lookup_put _ _ _ _

def depthIn (nodes : Nodes) (address : Address) : Option Nat := (nodes.lookup address).map (·.depth)

def analyzedIn (nodes : Nodes) (address : Address) : Bool := (nodes.lookup address).any (·.analyzed)

theorem depthIn_ensureNode (nodes : Nodes) (address : Address) (payload : Node) :
    depthIn (ensureNode nodes address payload) = lower (depthIn nodes) address payload.depth := by
  funext other
  unfold depthIn lower
  rw [lookup_ensureNode]
  dsimp only
  by_cases same : other = address
  · rw [if_pos same,if_pos same]
    cases nodes.lookup address <;> rfl
  · rw [if_neg same,if_neg same]

theorem analyzedIn_ensureNode (nodes : Nodes) (address other : Address) (payload : Node) :
    analyzedIn (ensureNode nodes address payload) other =
    (analyzedIn nodes other || (decide (other = address) && payload.analyzed)) := by
  unfold analyzedIn
  rw [lookup_ensureNode]
  by_cases same : other = address
  · subst same
    cases nodes.lookup other <;> simp [mergeNode]
  · simp [same]

theorem lookup_setMappingEnumeration (nodes : Nodes) (address other : Address) (status : Option Bool) :
    depthIn (setMappingEnumeration nodes address status) other = depthIn nodes other ∧
      analyzedIn (setMappingEnumeration nodes address status) other = analyzedIn nodes other := by
  unfold setMappingEnumeration depthIn analyzedIn
  cases found : nodes.lookup address with
  | none => exact ⟨rfl,rfl⟩
  | some node =>
    rw [Dict.lookup_put]
    by_cases same : other = address
    · subst same
      rw [found]
      simp
    · simp [same]

def linksOf (edges : List Edge) : List (Address × Address) := edges.map fun edge => (edge.fromId,edge.toId)

theorem mem_linksOf_addEdge : link ∈ linksOf (addEdge edges edge) ↔ link ∈ linksOf edges ∨
    link = (edge.fromId,edge.toId) := by
  unfold addEdge linksOf
  split
  · rename_i present
    obtain ⟨held,inside,same⟩ := List.any_eq_true.mp present
    have same : edgeKey held = edgeKey edge := of_decide_eq_true same
    have ends : (held.fromId,held.toId) = (edge.fromId,edge.toId) := by
      simp only [edgeKey,Prod.mk.injEq] at same
      rw [same.1,same.2.1]
    constructor
    · exact Or.inl
    · intro member
      rcases member with old | new
      · exact old
      · rw [new,← ends]
        exact List.mem_map_of_mem inside
  · rw [List.map_append,List.mem_append,List.map_singleton,List.mem_singleton]

structure Shows (s : State) (walk : Walk Address) : Prop where
  depth : depthIn s.nodes = walk.depth
  links : ∀ link, link ∈ linksOf s.edges ↔ link ∈ walk.links
  analyzed : ∀ address, analyzedIn s.nodes address = true ↔ address ∈ walk.taken.map Prod.fst
  withheld : s.withheld = []

variable {world : World} {maxDepth : Nat}

theorem maybeQueueAddress_shows (shows : Shows s walk) :
    Shows (maybeQueueAddress maxDepth s address depth) (enqueue maxDepth walk address depth) := by
  unfold maybeQueueAddress enqueue
  split <;> split <;> exact ⟨shows.depth,shows.links,shows.analyzed,shows.withheld⟩

theorem showPrincipal_shows (shows : Shows s walk) (edge : Edge) (type : ResolvedType) (label : String)
    (depth : Nat) (far : Bool) :
    Shows (showPrincipal maxDepth s edge type label
      (depth + (Meeting.mk edge.fromId edge.toId far type.analyzable).steps))
      (note maxDepth depth walk ⟨edge.fromId,edge.toId,far,type.analyzable⟩) := by
  unfold showPrincipal note
  generalize depth + (Meeting.mk edge.fromId edge.toId far type.analyzable).steps = shown
  have shows (kind : NodeType) : Shows {s with
    nodes:=ensureNode s.nodes edge.toId {nodeType:=kind,resolvedType:=type,label:=label,depth:=shown}
    edges:=addEdge s.edges edge}
    {walk with depth:=lower walk.depth edge.toId shown,links:=walk.links ++ [(edge.fromId,edge.toId)]} := by
    refine ⟨?_,?_,?_,shows.withheld⟩
    · rw [depthIn_ensureNode,shows.depth]
    · intro link
      rw [mem_linksOf_addEdge,shows.links,List.mem_append,List.mem_singleton]
    · intro address
      rw [analyzedIn_ensureNode,Bool.and_false,Bool.or_false]
      exact shows.analyzed address
  split
  · exact maybeQueueAddress_shows (shows _)
  · exact shows _

def Memberless (world : World) (address : Address) : Prop :=
  ∃ artifacts, world.artifacts address = some artifacts ∧ ∀ trees, artifacts.predicateTrees = some trees →
    trees.replay = none

theorem replayMembers_shows (shows : Shows s walk) (address : Address) (depth : Nat)
    (memberless : ∀ found, trees = some found → found.replay = none) : Shows
    (replayMembers s address depth trees) walk := by
  cases trees with
  | none => exact shows
  | some trees =>
    unfold replayMembers
    dsimp only
    rw [memberless trees rfl]
    refine ⟨?_,shows.links,?_,shows.withheld⟩
    · funext other
      rw [(lookup_setMappingEnumeration _ _ _ _).1,shows.depth]
    · intro other
      rw [(lookup_setMappingEnumeration _ _ _ _).2]
      exact shows.analyzed other

theorem visit_shows (shows : Shows s walk) (entry : Address × Nat) (memberless : Memberless world entry.1) :
    Shows (visit world maxDepth s (pendingOf entry)) (take (meetings world) maxDepth walk entry) := by
  obtain ⟨artifacts,found,none⟩ := memberless
  unfold visit take pendingOf
  rw [found]
  refine artifacts_related (fun _ _ shows => showPrincipal_shows shows) found _ ?_
  refine replayMembers_shows ?_ _ _ none
  refine ⟨?_,shows.links,?_,shows.withheld⟩
  · rw [depthIn_ensureNode,shows.depth]
  · intro other
    rw [analyzedIn_ensureNode,Bool.and_true,Bool.or_eq_true,decide_eq_true_eq,shows.analyzed,
      List.map_append,List.mem_append,List.map_singleton,
      List.mem_singleton]

theorem visits_show (shows : Shows s walk) (entries : List (Address × Nat))
    (memberless : ∀ entry ∈ entries, Memberless world entry.1) :
    Shows ((entries.map pendingOf).foldl (visit world maxDepth) s)
    (entries.foldl (take (meetings world) maxDepth) walk) := by
  induction entries generalizing s walk with
  | nil => exact shows
  | cons first rest ih =>
    exact ih (visit_shows shows first (memberless first List.mem_cons_self)) (List.forall_mem_cons.mp memberless).2

theorem level_shows (follows : Follows s walk) (shows : Shows s walk)
    (memberless : ∀ entry ∈ walk.queue, Memberless world entry.1)
    (step : level world maxDepth s = some later)
    (round : Levels.round (meetings world) maxDepth walk = some next) : Shows later next := by
  obtain ⟨entries,queue,rfl,same,inside⟩ := level_visits follows step
  obtain rfl := Option.some.inj (same.symm.trans round)
  refine visits_show ?_ entries fun entry member => memberless entry (inside entry member)
  exact ⟨shows.depth,shows.links,shows.analyzed,shows.withheld⟩

-- The same type and the same owners wherever an address is met.
def Uniform (world : World) : Prop :=
  ∀ address met type details, Met world address met type details → type = (world.classify met).1 ∧
    nestedPrincipalsForDetails type details = nestedPrincipalsForDetails (world.classify met).1 (world.classify met).2

def analyzable (world : World) (address : Address) : Bool := (world.classify address).1.analyzable

def ownersOf (world : World) (address : Address) : List Address :=
  (nestedPrincipalsForDetails (world.classify address).1 (world.classify address).2).map Prod.fst

def Direct (world : World) (address met : Address) : Prop := ∃ type details, Met world address met type details

abbrev WalkReaches (world : World) (root address : Address) : Prop := Levels.Reached (meetings world) root address

theorem uniform_meeting (uniform : Uniform world) : meeting ∈ meetings world address ↔
    ∃ met, Direct world address met ∧ (meeting = ⟨address,met,false,analyzable world met⟩ ∨
      ∃ owner ∈ ownersOf world met, meeting = ⟨met,owner,true,analyzable world owner⟩) := by
  rw [mem_meetings]
  constructor
  · intro found
    obtain ⟨met,type,details,meets,shape⟩ := found
    obtain ⟨same,nested⟩ := uniform address met type details meets
    refine ⟨met,⟨type,details,meets⟩,?_⟩
    rcases shape with near | far
    · exact .inl (by rw [near,same]; rfl)
    · unfold nestedMeetings at far
      rw [nested] at far
      obtain ⟨owner,inside,is⟩ := List.mem_map.mp far
      exact .inr ⟨owner.1,List.mem_map_of_mem inside,is.symm⟩
  · intro found
    obtain ⟨met,⟨type,details,meets⟩,shape⟩ := found
    obtain ⟨same,nested⟩ := uniform address met type details meets
    refine ⟨met,type,details,meets,?_⟩
    rcases shape with near | ⟨owner,inside,far⟩
    · exact .inl (by rw [near,same]; rfl)
    · obtain ⟨entry,member,is⟩ := List.mem_map.mp inside
      refine .inr ?_
      unfold nestedMeetings
      rw [nested]
      exact List.mem_map.mpr ⟨entry,member,by rw [far,← is]; rfl⟩

theorem meetings_behind (uniform : Uniform world) : Levels.Behind (meetings world) where
  near address meeting inside near := by
    obtain ⟨met,_,is | ⟨owner,_,is⟩⟩ := (uniform_meeting uniform).mp inside
    · rw [is]
    · rw [is] at near
      cases near
  between address meeting inside far := by
    obtain ⟨met,direct,is | ⟨owner,_,is⟩⟩ := (uniform_meeting uniform).mp inside
    · rw [is] at far
      cases far
    · exact ⟨_,(uniform_meeting uniform).mpr ⟨met,direct,.inl rfl⟩,rfl,by rw [is]⟩

-- The contracts one level expands.
def expanded (maxDepth : Nat) (s : State) (target : Nat) : List PendingContract :=
  s.queue.filter fun entry =>
    decide (entry.depth = target) && decide (entry.address ∉ s.processed) && decide (entry.depth ≤ maxDepth)

-- Before a level: shown at that depth or nearer, or expanded there by the level.
def Placed (maxDepth : Nat) (s : State) (target : Nat) (address : Address) (depth : Nat) : Prop :=
  Below (depthIn s.nodes) address depth ∨ ⟨address,target⟩ ∈ expanded maxDepth s target ∧ target ≤ depth

-- Whatever stands behind an address that is nearer than the level takes it is near enough already.
structure Nearby (world : World) (maxDepth : Nat) (s : State) (target : Nat) : Prop where
  named : ∀ entry ∈ expanded maxDepth s target, ∀ met, Direct world entry.address met → ∀ depth < target,
    Placed maxDepth s target entry.address depth → Placed maxDepth s target met (depth + 1)
  owned : ∀ entry ∈ expanded maxDepth s target, ∀ met, Direct world entry.address met →
    ∀ owner ∈ ownersOf world met, ∀ depth ≤ target, Placed maxDepth s target met depth →
      Placed maxDepth s target owner (depth + 1) ∨
        depth = target ∧ ∃ other ∈ expanded maxDepth s target, Direct world other.address owner

def LevelNearby (world : World) (maxDepth : Nat) (s : State) : Prop :=
  ∀ first rest, s.queue = first :: rest → Nearby world maxDepth s (targetDepth first rest)

section
variable (follows : Follows s walk) (shows : Shows s walk)
include follows

theorem mem_expanded : entry ∈ expanded maxDepth s target ↔
    (entry.address,entry.depth) ∈ Levels.pending maxDepth walk target := by
  unfold expanded
  rw [pending_follows follows,List.mem_map]
  constructor
  · rintro ⟨⟨address,depth⟩,inside,rfl⟩
    exact inside
  · exact fun inside => ⟨_,inside,rfl⟩

include shows

theorem placed_iff : Placed maxDepth s target address depth ↔ Levels.Placed maxDepth walk target address depth := by
  unfold Placed Levels.Placed
  rw [shows.depth,mem_expanded follows]

theorem nearby_iff (uniform : Uniform world) :
    Nearby world maxDepth s target ↔ Levels.Fair (meetings world) maxDepth walk target := by
  have expands {entry : Address × Nat} (inside : entry ∈ Levels.pending maxDepth walk target) :
      pendingOf entry ∈ expanded maxDepth s target := (mem_expanded follows).mpr inside
  have meets {address met : Address} (direct : Direct world address met) :
      ⟨address,met,false,analyzable world met⟩ ∈ meetings world address :=
    (uniform_meeting uniform).mpr ⟨met,direct,.inl rfl⟩
  constructor
  · rintro ⟨named,owned⟩
    refine ⟨fun entry inside meeting member near depth small placed => ?_,
      fun entry inside meeting member far depth small placed => ?_⟩
    · obtain ⟨met,direct,rfl | ⟨owner,_,rfl⟩⟩ := (uniform_meeting uniform).mp member
      · rw [← placed_iff follows shows] at placed ⊢
        exact named _ (expands inside) met direct depth small placed
      · cases near
    · obtain ⟨met,direct,rfl | ⟨owner,owns,rfl⟩⟩ := (uniform_meeting uniform).mp member
      · cases far
      · rw [← placed_iff follows shows] at placed ⊢
        refine (owned _ (expands inside) met direct owner owns depth small placed).imp id ?_
        rintro ⟨same,other,inOther,directly⟩
        exact ⟨same,_,(mem_expanded follows).mp inOther,_,meets directly,rfl,rfl⟩
  · rintro ⟨near,far⟩
    refine ⟨fun entry inside met direct depth small placed => ?_,
      fun entry inside met direct owner owns depth small placed => ?_⟩
    · rw [placed_iff follows shows] at placed ⊢
      exact near _ ((mem_expanded follows).mp inside) _ (meets direct) rfl depth small placed
    · have member : ⟨met,owner,true,analyzable world owner⟩ ∈ meetings world entry.address :=
        (uniform_meeting uniform).mpr ⟨met,direct,.inr ⟨owner,owns,rfl⟩⟩
      rw [placed_iff follows shows] at placed ⊢
      refine (far _ ((mem_expanded follows).mp inside) _ member rfl depth small placed).imp id ?_
      rintro ⟨same,other,inOther,meeting,member,one,goal⟩
      obtain ⟨direct,directly,rfl | ⟨_,_,rfl⟩⟩ := (uniform_meeting uniform).mp member
      · dsimp only at goal
        exact ⟨same,_,expands inOther,goal ▸ directly⟩
      · cases one

theorem levelNearby_iff (uniform : Uniform world) :
    LevelNearby world maxDepth s ↔ Levels.FairLevel (meetings world) maxDepth walk := by
  unfold LevelNearby Levels.FairLevel
  rw [follows.queue]
  cases walk.queue with
  | nil => simp
  | cons first rest =>
    have same : targetDepth (pendingOf first) (rest.map pendingOf) = Levels.least first.2 rest :=
      targetDepth_least first rest
    constructor
    · rintro nearby _ _ ⟨⟩
      exact (nearby_iff follows shows uniform).mp (same ▸ nearby _ _ rfl)
    · rintro fair _ _ ⟨⟩
      rw [same]
      exact (nearby_iff follows shows uniform).mpr (fair _ _ rfl)

end

-- So many published edges from the root, and no fewer.
def Distance (root : Address) (graph : ResolvedControlGraph) (address : Address) (length : Nat) : Prop :=
  Levels.Shortest root (linksOf graph.edges) address length

theorem publishRoleReadMembers_none (none : s.withheld = []) : publishRoleReadMembers s = s := by
  unfold publishRoleReadMembers
  rw [none,List.mergeSort_nil]
  rfl

theorem uniform_entered (uniform : Uniform world) (address : Address) :
    ∀ meeting ∈ meetings world address, meeting.enters = analyzable world meeting.target := by
  intro meeting inside
  obtain ⟨met,_,is | ⟨owner,_,is⟩⟩ := (uniform_meeting uniform).mp inside
  · rw [is]
  · rw [is]

section
variable (memberless : ∀ address, WalkReaches world root address → Memberless world address)
include memberless

theorem walked_shows (rounds : Nat) :
    Follows (walked world maxDepth root none rounds)
      (Loop.run (Levels.round (meetings world) maxDepth) rounds (Levels.start root)) ∧
    Shows (walked world maxDepth root none rounds)
      (Loop.run (Levels.round (meetings world) maxDepth) rounds (Levels.start root)) := by
  have start : Follows (startState world maxDepth root none) (Levels.start root) := ⟨rfl,rfl,rfl⟩
  have shown : Shows (startState world maxDepth root none) (Levels.start root) := by
    refine ⟨rfl,fun _ => Iff.rfl,?_,rfl⟩
    simp [startState,analyzedIn,Levels.start]
  have related := @Loop.run_related _ _ (level world maxDepth) (Levels.round (meetings world) maxDepth)
    (fun s walk => Follows s walk ∧ Shows s walk ∧ Kept (meetings world) maxDepth root [] walk) ?_ ?_ rounds _ _
    ⟨start,shown,start_kept⟩
  · exact ⟨related.1,related.2.1⟩
  · intro s walk later before step
    obtain ⟨follows,shows,kept⟩ := before
    obtain ⟨next,round,after⟩ := level_follows follows step
    refine ⟨next,round,after,level_shows follows shows ?_ step round,kept.round round⟩
    exact fun entry member => memberless _ (kept.reached (.inl member))
  · intro s walk before ended
    exact round_over.mpr ((level_over before.1).mp ended)

end

-- Each node as far from the root as its depth says, and what is near enough analyzed.
structure BreadthFirst (world : World) (maxDepth : Nat) (root : Address) (graph : ResolvedControlGraph) : Prop where
  depth : ∀ address node, graph.nodes.lookup address = some node → Distance root graph address node.depth
  analyzed : ∀ address, address ≠ root → ((∃ node, graph.nodes.lookup address = some node ∧ node.analyzed = true) ↔
    analyzable world address = true ∧ ∃ length ≤ maxDepth, Distance root graph address length)

section
variable (kept : Kept (meetings world) maxDepth root [] walk) (done : walk.queue = []) (shows : Shows s walk)
    (uniform : Uniform world)
include kept done shows uniform

theorem distance_iff : Levels.Relaxed walk ↔
    ∀ address node, s.nodes.lookup address = some node → Distance root ⟨s.nodes,s.edges⟩ address node.depth := by
  rw [kept.relaxed_iff done (meetings_behind uniform),← shows.depth]
  constructor
  · intro shortest address node found
    refine (shortest address node.depth ?_).congr fun link => (shows.links link).symm
    unfold depthIn
    rw [found]
    rfl
  · intro distance address value found
    obtain ⟨node,held,rfl⟩ := Option.map_eq_some_iff.mp found
    exact (distance address node held).congr shows.links

theorem breadthFirst_iff : BreadthFirst world maxDepth root ⟨s.nodes,s.edges⟩ ↔ Levels.Relaxed walk := by
  refine ⟨fun first => (distance_iff kept done shows uniform).mpr first.depth,fun relaxed => ?_⟩
  have distance := (distance_iff kept done shows uniform).mp relaxed
  refine ⟨distance,fun address notRoot => ?_⟩
  have taken := kept.taken_iff done (fun other _ => uniform_entered uniform other) notRoot
  have analyzed : (∃ node, s.nodes.lookup address = some node ∧ node.analyzed = true) ↔
      ∃ depth, (address,depth) ∈ walk.taken := by
    have shown := shows.analyzed address
    unfold analyzedIn at shown
    rw [← Option.any_eq_true,shown]
    simp
  rw [analyzed,taken,← shows.depth]
  refine and_congr_right fun _ => ⟨?_,?_⟩
  · rintro ⟨length,small,found⟩
    obtain ⟨node,held,rfl⟩ := Option.map_eq_some_iff.mp found
    exact ⟨node.depth,small,distance address node held⟩
  · rintro ⟨length,small,path⟩
    rw [shows.depth]
    exact (kept.depth_le done relaxed (path.congr shows.links).1).mono small

end

theorem control_walk_breadth_first {world : World} {root : Address} (maxDepth : Nat) {addresses : List Address}
    (finite : ∀ address met, WalkReaches world root address → Direct world address met → met ∈ addresses ∧
      ownersOf world met ⊆ addresses)
    (memberless : ∀ address, WalkReaches world root address → Memberless world address) (uniform : Uniform world) :
    ∃ bound, ∀ rounds, bound ≤ rounds → ∃ graph, resolveControlGraph world maxDepth root none rounds = some graph ∧
      (BreadthFirst world maxDepth root graph ↔
        ∀ earlier < rounds, LevelNearby world maxDepth (walked world maxDepth root none earlier)) := by
  have closed : ∀ key, WalkReaches world root key → ∀ meeting ∈ meetings world key, meeting.target ∈ addresses := by
    intro key reached meeting inside
    obtain ⟨met,direct,is | ⟨owner,owned,is⟩⟩ := (uniform_meeting uniform).mp inside
    · rw [is]
      exact (finite key met reached direct).1
    · rw [is]
      exact (finite key met reached direct).2 owned
  refine ⟨Levels.remaining addresses (Levels.start root),fun rounds enough => ?_⟩
  obtain ⟨follows,shows⟩ := @walked_shows _ _ maxDepth memberless rounds
  obtain ⟨kept,done⟩ : Kept (meetings world) maxDepth root [] _ ∧ _ := Levels.run_ends closed rounds enough
  have empty : (walked world maxDepth root none rounds).queue = [] := by
    rw [follows.queue,done]
    rfl
  have graph : graphOf (walked world maxDepth root none rounds) =
      ⟨(walked world maxDepth root none rounds).nodes,(walked world maxDepth root none rounds).edges⟩ := by
    unfold graphOf
    rw [publishRoleReadMembers_none shows.withheld]
  refine ⟨_,if_pos empty,?_⟩
  rw [graph,breadthFirst_iff kept done shows uniform,Levels.run_relaxed (meetings_behind uniform)]
  refine forall₂_congr fun earlier _ => ?_
  obtain ⟨follows,shows⟩ := @walked_shows _ _ maxDepth memberless earlier
  exact (levelNearby_iff follows shows uniform).symm

def account (digit : Char) : Address := String.ofList ('0' :: 'x' :: List.replicate 40 digit)

@[simp] theorem account_inj : account one = account other ↔ one = other := by
  simp [account]

def signers : Details := {owners:=some [account '3']}

def throughSafe : ControllerValue := {controllerId:="guardian",value:=account '2',resolvedType:=.safe,details:=signers}

def directly (controllerId : String) (digit : Char) : ControllerValue :=
  {controllerId:=controllerId,value:=account digit,resolvedType:=.contract}

-- A root names a registry and a Safe that the registry signs; the registry names one more contract.
def chain (signerFirst : Bool) : World where
  artifacts address :=
    if address = account '1' then
      some {name:="Vault",controllerValues:=
        if signerFirst then [throughSafe,directly "registry" '3'] else [directly "registry" '3',throughSafe]}
    else if address = account '3' then some {name:="Registry",controllerValues:=[directly "owner" '4']}
    else some {name:="Owner"}
  classify address := if address = account '2' then (.safe,signers) else (.contract,{})

theorem chain_met (meets : Met (chain signerFirst) address met type details) :
    (met = account '2' ∧ type = .safe ∧ details = signers) ∨
      ((met = account '3' ∨ met = account '4') ∧ type = .contract ∧ details = {}) := by
  obtain ⟨artifacts,found,how⟩ := meets
  unfold chain at found
  dsimp only at found
  split at found
  · cases found
    rcases how with ⟨controller,inside,_,rfl,rfl,rfl⟩ | ⟨_,none,_⟩
    · have either : controller = throughSafe ∨ controller = directly "registry" '3' := by
        cases signerFirst <;> simp at inside <;> tauto
      rcases either with rfl | rfl
      · exact .inl ⟨by decide +kernel,rfl,rfl⟩
      · exact .inr ⟨.inl (by decide +kernel),rfl,rfl⟩
    · cases none
  · split at found
    · cases found
      rcases how with ⟨controller,inside,_,rfl,rfl,rfl⟩ | ⟨_,none,_⟩
      · rw [List.mem_singleton.mp inside]
        exact .inr ⟨.inr (by decide +kernel),rfl,rfl⟩
      · cases none
    · cases found
      rcases how with ⟨_,none,_⟩ | ⟨_,none,_⟩
      · cases none
      · cases none

theorem chain_classify (other : account digit ≠ account '2') : (chain signerFirst).classify
    (account digit) = (.contract,{}) :=
  if_neg other

theorem chain_uniform (signerFirst : Bool) : Uniform (chain signerFirst) := by
  intro address met type details meets
  rcases chain_met meets with ⟨rfl,rfl,rfl⟩ | ⟨rfl | rfl,rfl,rfl⟩
  · exact ⟨rfl,rfl⟩
  · rw [chain_classify (by simp)]
    exact ⟨rfl,rfl⟩
  · rw [chain_classify (by simp)]
    exact ⟨rfl,rfl⟩

theorem chain_memberless (signerFirst : Bool) (address : Address) : Memberless (chain signerFirst) address := by
  unfold Memberless chain
  dsimp only
  split
  · exact ⟨_,rfl,fun _ none => by cases none⟩
  · split
    · exact ⟨_,rfl,fun _ none => by cases none⟩
    · exact ⟨_,rfl,fun _ none => by cases none⟩

theorem chain_owners : ownersOf (chain signerFirst) address = if address = account '2' then [account '3'] else [] := by
  unfold ownersOf chain
  dsimp only
  split
  · decide +kernel
  · rfl

theorem chain_finite (direct : Direct (chain signerFirst) address met) :
    met ∈ [account '2',account '3',account '4'] ∧ ownersOf
    (chain signerFirst) met ⊆ [account '2',account '3',account '4'] := by
  obtain ⟨type,details,meets⟩ := direct
  rw [chain_owners]
  rcases chain_met meets with ⟨rfl,_⟩ | ⟨rfl | rfl,_⟩
  · rw [if_pos rfl]
    simp
  · rw [if_neg (by simp)]
    simp
  · rw [if_neg (by simp)]
    simp

-- Nothing is expanded deeper than it is shown, and nothing that a level meets is nearer than the level.
def plainly (world : World) (s : State) : Bool :=
  s.queue.all fun entry => (depthIn s.nodes entry.address).all (entry.depth ≤ ·) &&
    ((meetings world entry.address).filter (·.far)).all fun meeting =>
      (depthIn s.nodes meeting.source).all (entry.depth < ·) && meeting.source ∉ s.queue.map (·.address)

theorem nearby_of_plainly (uniform : Uniform world) (plain : plainly world s = true) :
    LevelNearby world maxDepth s := by
  intro first rest _
  have expands {entry : PendingContract} (inside : entry ∈ expanded maxDepth s (targetDepth first rest)) :
      entry ∈ s.queue ∧ entry.depth = targetDepth first rest := by
    obtain ⟨member,conditions⟩ := List.mem_filter.mp inside
    simp only [Bool.and_eq_true,decide_eq_true_eq] at conditions
    exact ⟨member,conditions.1.1⟩
  unfold plainly at plain
  simp only [List.all_eq_true,Bool.and_eq_true,decide_eq_true_eq,Option.all_eq_true,List.mem_filter] at plain
  constructor
  · intro entry inside met _ depth nearer placed
    obtain ⟨member,same⟩ := expands inside
    rcases placed with ⟨shown,small,found⟩ | ⟨_,small⟩
    · have := (plain entry member).1 shown found
      omega
    · omega
  · intro entry inside met direct owner owned depth nearer placed
    obtain ⟨member,same⟩ := expands inside
    have far : ⟨met,owner,true,analyzable world owner⟩ ∈ meetings world entry.address :=
      (uniform_meeting uniform).mpr ⟨met,direct,.inr ⟨owner,owned,rfl⟩⟩
    obtain ⟨deeper,unqueued⟩ := (plain entry member).2 _ ⟨far,rfl⟩
    rcases placed with ⟨shown,small,found⟩ | ⟨again,_⟩
    · have := deeper shown found
      omega
    · exact absurd (List.mem_map_of_mem (expands again).1) unqueued

theorem chain_over (earlier : Nat) : ∃ less ≤ 3,
    walked (chain false) 2 (account '1') none earlier = walked (chain false) 2 (account '1') none less := by
  by_cases few : earlier ≤ 3
  · exact ⟨earlier,few,rfl⟩
  · refine ⟨3,Nat.le_refl _,?_⟩
    have empty : (walked (chain false) 2 (account '1') none 3).queue = [] := by decide +kernel
    have ended : level (chain false) 2 (walked (chain false) 2 (account '1') none 3) = none := by
      unfold level
      rw [empty]
    exact Loop.run_over ended (by omega)

theorem chain_nearby (earlier : Nat) : LevelNearby (chain false) 2
    (walked (chain false) 2 (account '1') none earlier) := by
  obtain ⟨less,few,same⟩ := chain_over earlier
  rw [same]
  have plain : ∀ less ≤ 3, plainly (chain false) (walked (chain false) 2 (account '1') none less) = true := by
    decide +kernel
  exact nearby_of_plainly (chain_uniform false) (plain less few)

theorem chain_breadth_first : ∃ bound, ∀ rounds, bound ≤ rounds → ∃ graph,
    resolveControlGraph (chain false) 2 (account '1') none rounds = some graph ∧
      BreadthFirst (chain false) 2 (account '1') graph := by
  obtain ⟨bound,ends⟩ := control_walk_breadth_first 2 (fun _ _ _ => chain_finite)
    (fun address _ => chain_memberless false address) (chain_uniform false)
  refine ⟨bound,fun rounds enough => ?_⟩
  obtain ⟨graph,resolved,first⟩ := ends rounds enough
  exact ⟨graph,resolved,first.mpr fun earlier _ => chain_nearby earlier⟩

def crossed : ResolvedControlGraph := graphOf (walked (chain true) 2 (account '1') none 3)

theorem crossed_links : linksOf crossed.edges =
    [(account '1',account '2'),(account '2',account '3'),(account '1',account '3'),(account '3',account '4')] := by
  decide +kernel

theorem crossed_distance : Distance (account '1') crossed (account '4') 2 := by
  have registry : (account '1',account '3') ∈ linksOf crossed.edges := by simp [crossed_links]
  have owner : (account '3',account '4') ∈ linksOf crossed.edges := by simp [crossed_links]
  refine ⟨?_,?_⟩
  · exact ((Walks.Hops.seed (List.mem_singleton_self _)).hop (mem_nextOf.mpr registry)).hop (mem_nextOf.mpr owner)
  intro other path
  cases path with
  | seed member => exact absurd (List.mem_singleton.mp member) (by simp)
  | hop before link =>
    cases before with
    | seed member =>
      rw [List.mem_singleton.mp member,mem_nextOf,crossed_links] at link
      simp at link
    | hop _ _ => omega

-- The registry keeps its place as the Safe's signer, so the contract behind it
-- stands at depth three.
theorem signer_first_walks_deeper : Uniform (chain true) ∧ (∀ address, Memberless (chain true) address) ∧
    (∀ address met, Direct (chain true) address met →
      met ∈ [account '2',account '3',account '4'] ∧ ownersOf
        (chain true) met ⊆ [account '2',account '3',account '4']) ∧
    ∃ graph node, resolveControlGraph (chain true) 2 (account '1') none 3 = some graph ∧ graph.nodes.lookup
    (account '4') = some node ∧
      node.depth = 3 ∧ node.analyzed = false ∧ analyzable (chain true) (account '4') = true ∧ Distance
      (account '1') graph (account '4') 2 := by
  have shown : (crossed.nodes.lookup (account '4')).map (fun node => (node.depth,node.analyzed)) = some (3,false) :=
    by decide +kernel
  obtain ⟨node,found,shape⟩ := Option.map_eq_some_iff.mp shown
  obtain ⟨depth,analyzed⟩ := Prod.mk.inj shape
  have ended : (walked (chain true) 2 (account '1') none 3).queue = [] := by decide +kernel
  have resolved : resolveControlGraph (chain true) 2 (account '1') none 3 = some crossed := by
    unfold resolveControlGraph
    exact if_pos ended
  exact ⟨chain_uniform true,chain_memberless true,fun _ _ => chain_finite,crossed,node,resolved,
    found,depth,analyzed,by decide +kernel,
    crossed_distance⟩

end Psat.Control
