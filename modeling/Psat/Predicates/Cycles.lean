import Mathlib.Algebra.BigOperators.Fin
import Psat.Predicates.PostDominators

namespace Psat.Predicates
open Psat.General List

namespace Function
variable (f : Function)

-- The search's state; the stack and the open frames have their top first.
structure Search where
  order : Fin f.count → Option Nat := fun _ => none
  low : Fin f.count → Nat := fun _ => 0
  onStack : Fin f.count → Bool := fun _ => false
  stack : List (Fin f.count) := []
  cyclic : Fin f.count → Bool := fun _ => false
  counter : Nat := 0
  work : List (Fin f.count × Nat) := []

namespace Search
variable {f} (s : Search f)

def enter (v : Fin f.count) : Search f :=
  {s with
     order:=Function.update s.order v (some s.counter)
     low:=Function.update s.low v s.counter
     counter:=s.counter + 1
     stack:=v :: s.stack
     onStack:=Function.update s.onStack v true}

-- The stack popped down to a node, and what is left.
def popThrough (v : Fin f.count) : List (Fin f.count) → List (Fin f.count) × List (Fin f.count)
  | [] => ([],[])
  | w :: rest => if w = v then ([w],rest) else (w :: (popThrough v rest).1,(popThrough v rest).2)

def close (v : Fin f.count) : Search f :=
  let component := (popThrough v s.stack).1
  {s with
     stack:=(popThrough v s.stack).2
     onStack:=fun w => s.onStack w && !decide (w ∈ component)
     cyclic:=if 1 < component.length ∨ v ∈ f.succ v then fun w => s.cyclic w || decide (w ∈ component) else s.cyclic}

def lowerTo (v : Fin f.count) (number : Nat) : Search f := {s with low:=Function.update s.low v (min (s.low v) number)}

-- The top frame's next son, if it has one left.
def scan (v : Fin f.count) (child : Nat) (rest : List (Fin f.count × Nat)) (w : Fin f.count) : Search f :=
  match s.order w with
  | none => {s with work:=(w,0) :: (v,child + 1) :: rest}
  | some number =>
    if s.onStack w then {s.lowerTo v number with work:=(v,child + 1) :: rest}
    else {s with work:=(v,child + 1) :: rest}

def leave (v : Fin f.count) (rest : List (Fin f.count × Nat)) : Search f :=
  let after := match rest with
    | [] => {s with work:=rest}
    | (parent,_) :: _ => {s.lowerTo parent (s.low v) with work:=rest}
  if after.order v = some (after.low v) then after.close v else after

def advance (v : Fin f.count) (child : Nat) (rest : List (Fin f.count × Nat)) : Search f :=
  match (f.succ v)[child]? with
  | some w => s.scan v child rest w
  | none => s.leave v rest

def round : Option (Search f) :=
  match s.work with
  | [] => none
  | (v,child) :: rest => some ((if child = 0 then s.enter v else s).advance v child rest)

end Search

def searchFuel : Nat := 2 * ((List.finRange f.count).map fun v => (f.succ v).length).sum + 1

def searchFrom (s : Search f) (root : Fin f.count) : Search f :=
  if s.order root = none then Loop.run Search.round f.searchFuel {s with work:=[(root,0)]} else s

def cyclic : Fin f.count → Bool := ((List.finRange f.count).foldl f.searchFrom {}).cyclic

namespace Search
variable {f} {s s' : Search f}

-- A numbered node, and no lower than `low` while it is on the stack.
def Met (s : Search f) (low : Nat) (w : Fin f.count) : Prop :=
  ∃ number, s.order w = some number ∧ (s.onStack w = true → low ≤ number)

-- A way to the node of the stack with this number.
def Leads (s : Search f) (v : Fin f.count) (number : Nat) : Prop :=
  ∃ w, Relation.ReflTransGen (Edge f) v w ∧ s.onStack w = true ∧ s.order w = some number

-- An open frame at `v` with the finished nodes `above` it: none of their edges leads below `low v`,
-- and each of them leads to a lower node that is not below it either.
structure FrameOk (s : Search f) (base : Nat) (waiting : List (Fin f.count)) (v : Fin f.count) (child : Nat)
    (above : List (Fin f.count)) : Prop where
  opened : ∃ number, s.order v = some number ∧ s.low v ≤ number
  based : base ≤ s.low v
  scanned : ∀ w ∈ (f.succ v).take child, w ∈ waiting ∨ Met s (s.low v) w
  closed : ∀ u ∈ above, ∀ w ∈ f.succ u, Met s (s.low v) w
  lowest : Leads s v (s.low v)
  reached : ∀ u ∈ above, Relation.ReflTransGen (Edge f) v u
  back : ∀ u ∈ above, ∃ m n, s.order u = some m ∧ n < m ∧ s.low v ≤ n ∧ Leads s u n

-- The stack cut along the open frames, each entered from the one below.
inductive Frames (s : Search f) (base : Nat) (waiting : List (Fin f.count)) :
    List (Fin f.count × Nat) → List (Fin f.count) → Prop
  | nil : Frames s base waiting [] []
  | cons {v child rest above below} : FrameOk s base waiting v child above →
    (∀ frame ∈ rest.head?, v ∈ f.succ frame.1) →
    Frames s base waiting rest below → Frames s base waiting ((v,child) :: rest) (above ++ v :: below)

def Done (s : Search f) (v : Fin f.count) : Prop := s.order v ≠ none ∧ s.onStack v = false

-- The search between two rounds; `waiting` is the node about to be entered.
structure Ok (s : Search f) (base : Nat) (waiting : List (Fin f.count)) (active : List (Fin f.count × Nat)) : Prop where
  counted : base ≤ s.counter
  below : ∀ v number, s.order v = some number → number < s.counter
  seen : ∀ v, s.onStack v = true ↔ v ∈ s.stack
  numbered : ∀ v ∈ s.stack, ∃ number, s.order v = some number ∧ base ≤ number
  sorted : s.stack.Pairwise fun a b => ∀ m n, s.order a = some m → s.order b = some n → n < m
  finished : ∀ v, s.Done v → ∀ w ∈ f.succ v, s.Done w
  found : ∀ v, s.Done v → Relation.TransGen (Edge f) v v → s.cyclic v = true
  marked : ∀ v, s.cyclic v = true → Relation.TransGen (Edge f) v v
  frames : Frames s base waiting active s.stack
  root : ∀ v, (active.map Prod.fst).getLast? = some v → s.order v = some base
  start : active = [] → waiting ≠ [] → s.counter = base
  awaited : ∀ w ∈ waiting, ∀ frame ∈ active.head?, w ∈ f.succ frame.1

theorem Frames.transport {stack : List (Fin f.count)} (frames : Frames s base waiting active stack)
    (orders : ∀ u number, s.order u = some number → s'.order u = some number) (lows : ∀ u ∈ stack, s'.low u = s.low u)
    (fewer : ∀ w number, s.order w = some number → s'.onStack w = true → s.onStack w = true)
    (stays : ∀ u ∈ stack, ∀ w m n, s.order u = some m → s.order w = some n → n ≤ m → s.onStack w = true →
      s'.onStack w = true)
    (waited : ∀ u ∈ stack, ∀ m, s.order u = some m → s.low u ≤ m → ∀ w ∈ waiting, Met s' (s.low u) w) :
    Frames s' base waiting' active stack := by
  induction frames with
  | nil => exact .nil
  | @cons v child rest above under ok link _ ih =>
    have here : v ∈ above ++ v :: under := by simp
    have low := lows v here
    obtain ⟨number,known,bounded⟩ := ok.opened
    have met {w} : Met s (s.low v) w → Met s' (s.low v) w := by
      rintro ⟨number,known,bounded⟩
      exact ⟨number,orders w number known,fun on => bounded (fewer w number known on)⟩
    have leads {u x m n} (inside : u ∈ above ++ v :: under) (known : s.order u = some m) (lower : n ≤ m) : Leads s x n →
      Leads s' x n := by
      rintro ⟨w,way,on,numbered⟩
      exact ⟨w,way,stays u inside w m n known numbered lower on,orders w n numbered⟩
    refine .cons ⟨?_,?_,?_,?_,?_,ok.reached,?_⟩ link ?_
    · exact ⟨number,orders v number known,by rwa [low]⟩
    · rw [low]
      exact ok.based
    · intro w member
      rw [low]
      rcases ok.scanned w member with waits | old
      · exact .inr (waited v here number known bounded w waits)
      · exact .inr (met old)
    · intro u inside w edge
      rw [low]
      exact met (ok.closed u inside w edge)
    · rw [low]
      exact leads here known bounded ok.lowest
    · intro u inside
      obtain ⟨m,n,order,lower,bounded,way⟩ := ok.back u inside
      exact ⟨m,n,orders u m order,lower,by rwa [low],leads (by simp [inside]) order (Nat.le_of_lt lower) way⟩
    · apply ih
      · exact fun u inside => lows u (by simp [inside])
      · exact fun u inside => stays u (by simp [inside])
      · exact fun u inside => waited u (by simp [inside])

theorem Frames.moved {stack : List (Fin f.count)} (frames : Frames s base [] active stack) (orders : s'.order = s.order)
    (on : s'.onStack = s.onStack) (lows : ∀ u ∈ stack, s'.low u = s.low u) : Frames s' base waiting active stack := by
  refine frames.transport ?_ lows ?_ ?_ (by simp)
  · exact fun u number known => by rw [orders,known]
  · exact fun w _ _ there => by rwa [on] at there
  · exact fun _ _ w _ _ _ _ _ there => by rwa [on]

theorem Ok.not_mem (ok : Ok s base waiting active) (fresh : s.order v = none) : v ∉ s.stack := by
  intro member
  obtain ⟨number,known,_⟩ := ok.numbered v member
  rw [fresh] at known
  cases known

theorem enter_ok (ok : Ok s base [v] rest) (fresh : s.order v = none) : Ok (s.enter v) base [] ((v,0) :: rest) := by
  have outside := ok.not_mem fresh
  have others : ∀ u, u ≠ v → (s.enter v).order u = s.order u ∧ (s.enter v).low u = s.low u ∧
    (s.enter v).onStack u = s.onStack u := by
    intro u differs
    simp [enter,differs]
  have own : (s.enter v).order v = some s.counter ∧ (s.enter v).low v = s.counter ∧ (s.enter v).onStack v = true := by
    simp [enter]
  have apart : ∀ u number, s.order u = some number → u ≠ v := by
    rintro u number known rfl
    rw [fresh] at known
    cases known
  have orders : ∀ u number, s.order u = some number → (s.enter v).order u = some number := by
    intro u number known
    rwa [(others u (apart u number known)).1]
  have member : ∀ u ∈ s.stack, u ≠ v := fun u inside same => outside (same ▸ inside)
  have done : ∀ u, (s.enter v).Done u → s.Done u := by
    rintro u ⟨known,off⟩
    have differs : u ≠ v := by
      rintro rfl
      rw [own.2.2] at off
      cases off
    rw [(others u differs).1] at known
    rw [(others u differs).2.2] at off
    exact ⟨known,off⟩
  constructor
  · exact Nat.le_succ_of_le ok.counted
  · intro u number known
    by_cases here : u = v
    · subst here
      rw [own.1] at known
      cases known
      exact Nat.lt_succ_self _
    · rw [(others u here).1] at known
      exact Nat.lt_succ_of_lt (ok.below u number known)
  · intro u
    by_cases here : u = v
    · subst here
      simp [enter]
    · rw [(others u here).2.2,ok.seen u]
      simp [enter,here]
  · refine forall_mem_cons.mpr ⟨⟨_,own.1,ok.counted⟩,?_⟩
    intro u old
    obtain ⟨number,known,bounded⟩ := ok.numbered u old
    exact ⟨number,orders u number known,bounded⟩
  · apply List.Pairwise.cons
    · intro b inside m n first second
      rw [own.1] at first
      rw [(others b (member b inside)).1] at second
      cases first
      exact ok.below b n second
    · apply ok.sorted.imp_of_mem
      intro a b left_ right_ lower m n first second
      rw [(others a (member a left_)).1] at first
      rw [(others b (member b right_)).1] at second
      exact lower m n first second
  · intro u ended w edge
    obtain ⟨known,off⟩ := ok.finished u (done u ended) w edge
    have differs : w ≠ v := fun same => known (same ▸ fresh)
    rw [Done,(others w differs).1,(others w differs).2.2]
    exact ⟨known,off⟩
  · exact fun u ended => ok.found u (done u ended)
  · exact ok.marked
  · have frame : FrameOk (s.enter v) base [] v 0 [] := by
      refine ⟨⟨_,own.1,Nat.le_of_eq own.2.1⟩,?_,by simp,by simp,⟨v,.refl,own.2.2,?_⟩,by simp,by simp⟩
      · rw [own.2.1]
        exact ok.counted
      · rw [own.1,own.2.1]
    apply Frames.cons frame
    · exact ok.awaited v (by simp)
    · apply ok.frames.transport orders
      · exact fun u inside => (others u (member u inside)).2.1
      · intro w number known on
        rwa [(others w (apart w number known)).2.2] at on
      · intro _ _ w _ n _ known _ on
        rwa [(others w (apart w n known)).2.2]
      · intro u _ m known bounded
        refine forall_mem_singleton.mpr ⟨_,own.1,fun _ => ?_⟩
        exact Nat.le_of_lt (Nat.lt_of_le_of_lt bounded (ok.below u m known))
  · intro u last
    cases rest with
    | nil =>
      obtain rfl : v = u := Option.some.inj last
      rw [own.1,ok.start rfl (by simp)]
    | cons first more =>
      exact orders u base (ok.root u last)
  · simp
  · simp

theorem Ok.top (ok : Ok s base [] ((v,child) :: rest)) :
    ∃ above under, s.stack = above ++ v :: under ∧ FrameOk s base [] v child above ∧ Frames s base [] rest under ∧
      (∀ frame ∈ rest.head?, v ∈ f.succ frame.1) ∧ v ∉ above ∧ ∀ u ∈ under, ∀ m n, s.order v = some m →
      s.order u = some n → n < m := by
  have frames := ok.frames
  generalize stack : s.stack = contents at frames
  cases frames with
  | @cons _ _ _ above under frame link below =>
    refine ⟨above,under,rfl,frame,below,link,?_⟩
    have sorted := ok.sorted
    rw [stack,pairwise_append,pairwise_cons] at sorted
    obtain ⟨number,known,_⟩ := frame.opened
    refine ⟨?_,sorted.2.1.1⟩
    intro inside
    exact Nat.lt_irrefl _ (sorted.2.2 v inside v (by simp) number number known known)

theorem Ok.work (ok : Ok s base [] active) (work : List (Fin f.count × Nat)) : Ok {s with work} base [] active :=
  {ok with frames:=ok.frames.moved rfl rfl fun _ _ => rfl}

theorem Ok.beneath (ok : Ok s base waiting active) (stack : s.stack = above ++ v :: under) : ∀ u ∈ under, u ≠ v := by
  rintro u inside rfl
  have sorted := ok.sorted
  rw [stack,pairwise_append,pairwise_cons] at sorted
  obtain ⟨number,known,_⟩ := ok.numbered u (by simp [stack])
  exact Nat.lt_irrefl _ (sorted.2.1.1 u inside number number known known)

theorem lowerTo_low (s : Search f) (v : Fin f.count) (number : Nat) : (s.lowerTo v number).low v = min
    (s.low v) number := by
  simp [lowerTo]

theorem Met.mono (met : Met s m w) (lower : n ≤ m) : Met s n w := by
  obtain ⟨number,known,bounded⟩ := met
  exact ⟨number,known,fun on => Nat.le_trans lower (bounded on)⟩

-- A frame that learns of a lower node.
theorem FrameOk.lowered (frame : FrameOk s base [] v child above) (based : base ≤ number) (leads : Leads s v number) :
    FrameOk (s.lowerTo v number) base [] v child above := by
  have low := lowerTo_low s v number
  have less := Nat.min_le_left (s.low v) number
  constructor
  · obtain ⟨own,opened,bounded⟩ := frame.opened
    exact ⟨own,opened,by omega⟩
  · rw [low]
    exact Nat.le_min.mpr ⟨frame.based,based⟩
  · intro w member
    rw [low]
    exact (frame.scanned w member).imp_right fun met => met.mono less
  · intro u inside w edge
    rw [low]
    exact (frame.closed u inside w edge).mono less
  · rw [low]
    rcases Nat.le_total (s.low v) number with least | more
    · rw [Nat.min_eq_left least]
      exact frame.lowest
    · rw [Nat.min_eq_right more]
      exact leads
  · exact frame.reached
  · intro u inside
    obtain ⟨m,n,order,lower,bounded,way⟩ := frame.back u inside
    exact ⟨m,n,order,lower,by omega,way⟩

theorem Ok.lowered (ok : Ok s base [] ((v,child) :: rest)) (based : base ≤ number) (leads : Leads s v number) :
    Ok (s.lowerTo v number) base [] ((v,child) :: rest) := by
  obtain ⟨above,under,stack,frame,frames,link,_⟩ := ok.top
  refine {ok with frames:=?_}
  change Frames _ base [] _ s.stack
  rw [stack]
  refine .cons (frame.lowered based leads) link (frames.moved rfl rfl ?_)
  intro u inside
  simp [lowerTo,ok.beneath stack u inside]

theorem Ok.scanned (ok : Ok s base [] ((v,child) :: rest)) (next : (f.succ v)[child]? = some w)
    (met : w ∈ waiting ∨ Met s (s.low v) w) (waits : ∀ u ∈ waiting, u = w) : Ok s base waiting
    ((v,child + 1) :: rest) := by
  obtain ⟨above,under,stack,frame,frames,link,_⟩ := ok.top
  refine {ok with frames:=?_,start:=by simp,awaited:=?_}
  · rw [stack]
    refine .cons {frame with scanned:=?_} link (frames.moved rfl rfl fun _ _ => rfl)
    intro u member
    simp only [take_add_one,next,Option.toList_some,mem_append,mem_singleton] at member
    rcases member with old | rfl
    · exact .inr ((frame.scanned u old).resolve_left (by simp))
    · exact met
  · intro u inside frame top
    cases top
    rw [waits u inside]
    exact mem_of_getElem? next

theorem scan_ok (ok : Ok s base [] ((v,child) :: rest)) (next : (f.succ v)[child]? = some w) :
    Ok (s.scan v child rest w) base (if s.order w = none then [w] else []) ((v,child + 1) :: rest) := by
  unfold scan
  cases order : s.order w with
  | none => exact (ok.work _).scanned next (.inl (by simp)) (by simp)
  | some number =>
    cases on : s.onStack w with
    | true =>
      obtain ⟨_,known,based⟩ := ok.numbered w ((ok.seen w).mp on)
      rw [order] at known
      cases known
      have edge : Relation.ReflTransGen (Edge f) v w := .single (mem_of_getElem? next)
      refine ((ok.lowered based ⟨w,edge,on,order⟩).work _).scanned next (.inr ⟨number,order,fun _ => ?_⟩) (by simp)
      simp [lowerTo]
    | false =>
      refine (ok.work _).scanned next (.inr ⟨number,order,fun there => ?_⟩) (by simp)
      rw [on] at there
      cases there

theorem popThrough_stack (outside : v ∉ above) : popThrough v (above ++ v :: under) = (above ++ [v],under) := by
  induction above with
  | nil => simp [popThrough]
  | cons first more ih =>
    rw [mem_cons,not_or] at outside
    rw [cons_append,popThrough,if_neg (Ne.symm outside.1),ih outside.2]
    rfl

theorem Ok.stays_done (ok : Ok s base waiting active) (reach : Relation.ReflTransGen (Edge f) v w) (done : s.Done v) :
    s.Done w := by
  induction reach with
  | refl => exact done
  | tail _ edge ih => exact ok.finished _ ih _ edge

theorem FrameOk.edges (frame : FrameOk s base [] v child above) (ended : (f.succ v)[child]? = none)
    (member : u ∈ above ++ [v]) (edge : w ∈ f.succ u) : Met s (s.low v) w := by
  rcases mem_append.mp member with up | here
  · exact frame.closed u up w edge
  · obtain rfl := mem_singleton.mp here
    rw [← take_of_length_le (List.getElem?_eq_none_iff.mp ended)] at edge
    exact (frame.scanned w edge).resolve_left (by simp)

theorem FrameOk.reaches (frame : FrameOk s base waiting v child above) (member : u ∈ above ++ [v]) :
    Relation.ReflTransGen (Edge f) v u := by
  rcases mem_append.mp member with up | here
  · exact frame.reached u up
  · rw [mem_singleton.mp here]

-- A frame left with a lower `low` than its number: its nodes go to the parent's frame.
theorem Ok.folded (ok : Ok s base [] ((v,child) :: (parent,turn) :: rest))
    (ended : (f.succ v)[child]? = none) (lower : s.order v ≠ some (s.low v)) :
    Ok (s.lowerTo parent (s.low v)) base [] ((parent,turn) :: rest) := by
  obtain ⟨above,under,stack,frame,frames,link,_⟩ := ok.top
  refine {ok with frames:=?_,root:=ok.root,start:=by simp,awaited:=by simp}
  change Frames _ base [] _ s.stack
  cases frames with
  | @cons _ _ _ mid deep outer onward frames =>
    have shape : s.stack = (above ++ [v] ++ mid) ++ parent :: deep := by simp [stack]
    have down : Relation.ReflTransGen (Edge f) parent v := .single (link _ rfl)
    obtain ⟨x,way,on,numbered⟩ := frame.lowest
    have lowered := outer.lowered frame.based ⟨x,down.trans way,on,numbered⟩
    have low := lowerTo_low s parent (s.low v)
    have less := Nat.min_le_right (s.low parent) (s.low v)
    rw [shape]
    refine .cons {lowered with closed:=?_,reached:=?_,back:=?_} onward (frames.moved rfl rfl ?_)
    · intro u inside w edge
      rcases mem_append.mp inside with up | old
      · rw [low]
        exact (frame.edges ended up edge).mono less
      · exact lowered.closed u old w edge
    · intro u inside
      rcases mem_append.mp inside with up | old
      · exact down.trans (frame.reaches up)
      · exact outer.reached u old
    · intro u inside
      rcases mem_append.mp inside with up | old
      · rcases mem_append.mp up with above_ | here
        · obtain ⟨m,n,order,smaller,bounded,way⟩ := frame.back u above_
          exact ⟨m,n,order,smaller,by omega,way⟩
        · obtain rfl := mem_singleton.mp here
          obtain ⟨number,known,bounded⟩ := frame.opened
          rw [known,Ne,Option.some.injEq] at lower
          exact ⟨number,s.low u,known,by omega,by omega,frame.lowest⟩
      · exact lowered.back u old
    · intro u inside
      simp [lowerTo,ok.beneath shape u inside]

-- With its own number as `low`, every node above a frame leads back to it.
theorem FrameOk.returns (ok : Ok s base [] ((v,child) :: rest)) (frame : FrameOk s base [] v child above)
    (stack : s.stack = above ++ v :: under)
    (own : s.order v = some (s.low v)) (number : Nat) : ∀ u ∈ above ++ [v], s.order u = some number →
    Relation.ReflTransGen (Edge f) u v := by
  induction number using Nat.strong_induction_on with
  | _ number ih =>
    intro u member known
    rcases mem_append.mp member with up | here
    · obtain ⟨m,n,order,smaller,bounded,w,way,on,numbered⟩ := frame.back u up
      cases known.symm.trans order
      have inside := (ok.seen w).mp on
      have sorted := ok.sorted
      rw [stack] at inside sorted
      rw [append_cons] at inside
      rcases mem_append.mp inside with here | beneath
      · exact way.trans (ih n smaller w here numbered)
      · rw [pairwise_append,pairwise_cons] at sorted
        have less := sorted.2.1.1 w beneath (s.low v) n own numbered
        omega
    · rw [mem_singleton.mp here]

theorem FrameOk.circles (ok : Ok s base [] ((v,child) :: rest)) (frame : FrameOk s base [] v child above)
    (stack : s.stack = above ++ v :: under)
    (outside : v ∉ above) (own : s.order v = some (s.low v)) (looped : 1 < (above ++ [v]).length ∨ v ∈ f.succ v)
    (member : u ∈ above ++ [v]) : Relation.TransGen (Edge f) u u := by
  have returns : ∀ x ∈ above ++ [v], Relation.ReflTransGen (Edge f) x v := by
    intro x inside
    obtain ⟨number,known,_⟩ := ok.numbered x (by rw [stack,append_cons]; exact mem_append_left _ inside)
    exact frame.returns ok stack own number x inside known
  have circle : Relation.TransGen (Edge f) v v := by
    rcases looped with long | self
    · obtain ⟨x,inside⟩ := exists_mem_of_length_pos (l:=above) (by rw [length_append,length_singleton] at long; omega)
      rcases Relation.reflTransGen_iff_eq_or_transGen.mp (frame.reached x inside) with same | path
      · exact absurd (same ▸ inside) outside
      · exact path.trans_left (returns x (mem_append_left _ inside))
    · exact .single self
  exact (circle.trans_right (returns u member)).trans_left (frame.reaches member)

-- A frame left with its own number as `low`: its part of the stack is one component.
theorem close_ok (ok : Ok s base [] ((v,child) :: rest))
    (ended : (f.succ v)[child]? = none) (own : s.order v = some (s.low v)) : Ok (s.close v) base [] rest := by
  obtain ⟨above,under,stack,frame,frames,_,outside,beneath⟩ := ok.top
  have popped : popThrough v s.stack = (above ++ [v],under) := by rw [stack,popThrough_stack outside]
  have sorted := ok.sorted
  rw [stack,append_cons,pairwise_append] at sorted
  have apart : ∀ u ∈ under, u ∉ above ++ [v] := by
    intro u inside member
    obtain ⟨number,known,_⟩ := ok.numbered u (by simp [stack,inside])
    exact Nat.lt_irrefl _ (sorted.2.2 u member u inside number number known known)
  -- No edge of the component leaves it, except to finished nodes.
  have component : ∀ u ∈ above ++ [v], ∀ w ∈ f.succ u, s.Done w ∨ s.order w ≠ none ∧ w ∈ above ++ [v] := by
    intro u member w edge
    obtain ⟨number,known,bounded⟩ := frame.edges ended member edge
    cases on : s.onStack w with
    | false => exact .inl ⟨by simp [known],on⟩
    | true =>
      have inside := (ok.seen w).mp on
      rw [stack,append_cons] at inside
      rcases mem_append.mp inside with here | down
      · exact .inr ⟨by simp [known],here⟩
      · have low := bounded on
        have high := beneath w down (s.low v) number own known
        omega
  have off : ∀ u, (s.close v).Done u ↔ s.Done u ∨ s.order u ≠ none ∧ u ∈ above ++ [v] := by
    intro u
    simp only [Done,close,popped,Bool.and_eq_false_iff,Bool.not_eq_false',decide_eq_true_eq]
    tauto
  constructor
  · exact ok.counted
  · exact ok.below
  · intro u
    simp only [close,popped,Bool.and_eq_true,ok.seen u,Bool.not_eq_true',decide_eq_false_iff_not]
    rw [stack,append_cons,mem_append]
    have absent := apart u
    tauto
  · intro u inside
    rw [close,popped] at inside
    exact ok.numbered u (by simp [stack,inside])
  · rw [close,popped]
    exact sorted.2.1
  · intro u done w edge
    rw [off] at done ⊢
    rcases done with old | ⟨_,member⟩
    · exact .inl (ok.finished u old w edge)
    · exact component u member w edge
  · intro u done cycle
    simp only [close,popped]
    rcases (off u).mp done with old | ⟨_,member⟩
    · have before := ok.found u old cycle
      split <;> simp [before]
    · have looped : 1 < (above ++ [v]).length ∨ v ∈ f.succ v := by
        by_contra single
        rw [not_or,length_append,length_singleton] at single
        obtain rfl : above = [] := eq_nil_of_length_eq_zero (by omega)
        obtain rfl := mem_singleton.mp member
        obtain ⟨w,edge,back⟩ := Relation.TransGen.head'_iff.mp cycle
        rcases component u member w edge with done | ⟨_,here⟩
        · have gone := (ok.stays_done back done).2
          rw [(ok.seen u).mpr (by simp [stack])] at gone
          cases gone
        · rw [mem_singleton.mp here] at edge
          exact single.2 edge
      rw [if_pos looped]
      simp only [decide_eq_true member,Bool.or_true]
  · intro u marked
    simp only [close,popped] at marked
    split at marked
    · rename_i looped
      rcases (Bool.or_eq_true _ _).mp marked with old | member
      · exact ok.marked u old
      · exact frame.circles ok stack outside own looped (of_decide_eq_true member)
    · exact ok.marked u marked
  · rw [show (s.close v).stack = under by rw [close,popped]]
    refine frames.transport (fun _ _ known => known) (fun _ _ => rfl) ?_ ?_ (by simp)
    · exact fun w _ _ on => ((Bool.and_eq_true _ _).mp on).1
    · intro u inside w m n known numbered lower on
      refine (Bool.and_eq_true _ _).mpr ⟨on,?_⟩
      rw [popped,Bool.not_eq_true',decide_eq_false_iff_not]
      intro member
      have higher := sorted.2.2 w member u inside n m numbered known
      omega
  · intro u last
    cases rest with
    | nil => cases last
    | cons first more => exact ok.root u last
  · simp
  · simp

theorem leave_ok (ok : Ok s base [] ((v,child) :: rest))
    (ended : (f.succ v)[child]? = none) : Ok (s.leave v rest) base [] rest ∧ (s.leave v rest).work = rest := by
  obtain ⟨above,under,stack,frame,frames,_,outside,beneath⟩ := ok.top
  obtain ⟨number,known,bounded⟩ := frame.opened
  unfold leave
  cases rest with
  | nil =>
    have same : s.low v = number := by
      have first := ok.root v rfl
      rw [known] at first
      cases first
      exact Nat.le_antisymm bounded frame.based
    have own : s.order v = some (s.low v) := by rw [known,same]
    rw [if_pos own]
    exact ⟨(close_ok ok ended own).work [],rfl⟩
  | cons first more =>
    obtain ⟨parent,turn⟩ := first
    cases frames with
    | @cons _ _ _ mid deep outer _ _ =>
      have inside : parent ∈ mid ++ parent :: deep := by simp
      have kept : (s.lowerTo parent (s.low v)).low v = s.low v := by
        simp [lowerTo,Ne.symm (ok.beneath stack parent inside)]
      dsimp only
      rw [kept]
      split
      · rename_i own
        obtain ⟨less,numbered,low⟩ := outer.opened
        have lower := beneath parent inside _ _ own numbered
        -- The parent's `low` is below the component's numbers already.
        have same : s.lowerTo parent (s.low v) = s := by
          unfold lowerTo
          rw [Nat.min_eq_left (by omega),Function.update_eq_self]
        rw [same]
        exact ⟨(close_ok ok ended own).work _,rfl⟩
      · rename_i lower
        exact ⟨(ok.folded ended lower).work _,rfl⟩

-- The top frame is about to be entered, or every frame has scanned a son.
inductive Between (s : Search f) (base : Nat) : Prop
  | entering {v rest} : s.work = (v,0) :: rest → s.order v = none → Ok s base [v] rest → (∀ frame ∈ rest, 0 < frame.2) →
    Between s base
  | open_ : Ok s base [] s.work → (∀ frame ∈ s.work, 0 < frame.2) → Between s base

-- The sons still to scan, those of unseen nodes included.
def toScan (order : Fin f.count → Option Nat) : Nat := ∑ v, if order v = none then 2 * (f.succ v).length else 0

def frameWeight (order : Fin f.count → Option Nat) (frame : Fin f.count × Nat) : Nat :=
  if order frame.1 = none then 1 else 2 * ((f.succ frame.1).length - frame.2) + 1

def remaining (s : Search f) : Nat := toScan s.order + (s.work.map (frameWeight s.order)).sum

theorem toScan_enter (fresh : s.order v = none) : toScan s.order = toScan (s.enter v).order + 2 * (f.succ v).length :=
    by
  unfold toScan
  rw [← Finset.add_sum_erase Finset.univ (fun u => if s.order u = none then 2 * (f.succ u).length else 0)
    (Finset.mem_univ v),
    ← Finset.add_sum_erase Finset.univ (fun u => if (s.enter v).order u = none then 2 * (f.succ u).length else 0)
      (Finset.mem_univ v)]
  have others : ∑ u ∈ Finset.univ.erase v, (if (s.enter v).order u = none then 2 * (f.succ u).length else 0) =
    ∑ u ∈ Finset.univ.erase v, if s.order u = none then 2 * (f.succ u).length else 0 := by
    apply Finset.sum_congr rfl
    intro u member
    simp [enter,Finset.ne_of_mem_erase member]
  rw [others,fresh]
  simp [enter]
  omega

theorem Frames.opened {stack : List (Fin f.count)}
    (frames : Frames s base waiting active stack) : ∀ frame ∈ active, s.order frame.1 ≠ none := by
  induction frames with
  | nil => intro frame member; cases member
  | cons ok _ _ ih =>
    intro frame member
    rcases mem_cons.mp member with rfl | later
    · obtain ⟨number,known,_⟩ := ok.opened
      simp [known]
    · exact ih frame later

theorem advance_order (s : Search f) (v : Fin f.count) (child : Nat) (rest : List (Fin f.count × Nat)) :
    (s.advance v child rest).order = s.order := by
  unfold advance
  split
  · unfold scan
    split
    · rfl
    · split <;> rfl
  · unfold leave
    cases rest <;> dsimp only <;> split <;> rfl

theorem advance_ok (ok : Ok s base [] ((v,child) :: rest))
    (turns : ∀ frame ∈ rest, 0 < frame.2) : Between (s.advance v child rest) base ∧
      (s.advance v child rest).remaining < toScan s.order + (((v,child) :: rest).map (frameWeight s.order)).sum := by
  have opened : s.order v ≠ none := ok.frames.opened (v,child) (by simp)
  unfold advance
  cases next : (f.succ v)[child]? with
  | some w =>
    have within : child < (f.succ v).length := (List.getElem?_eq_some_iff.mp next).1
    have kept := scan_ok ok next
    have positive : ∀ frame ∈ (v,child + 1) :: rest, 0 < frame.2 := forall_mem_cons.mpr ⟨Nat.succ_pos _,turns⟩
    unfold scan at kept ⊢
    cases order : s.order w with
    | none =>
      simp only [order,if_true] at kept ⊢
      refine ⟨.entering rfl order kept positive,?_⟩
      simp only [remaining,map_cons,sum_cons,frameWeight,order,if_true,if_neg opened]
      omega
    | some number =>
      simp only [order,reduceCtorEq,if_false] at kept ⊢
      split at kept
      · rename_i on
        rw [if_pos on]
        refine ⟨.open_ kept positive,?_⟩
        simp only [remaining,map_cons,sum_cons,frameWeight,lowerTo,if_neg opened]
        omega
      · rename_i off
        rw [if_neg off]
        refine ⟨.open_ kept positive,?_⟩
        simp only [remaining,map_cons,sum_cons,frameWeight,if_neg opened]
        omega
  | none =>
    obtain ⟨kept,work⟩ := leave_ok ok next
    have orders : (s.leave v rest).order = s.order := by
      have same := advance_order s v child rest
      rwa [advance,next] at same
    refine ⟨.open_ (by rw [work]; exact kept) (by rw [work]; exact turns),?_⟩
    rw [remaining,work,orders,map_cons,sum_cons]
    have weight : 0 < frameWeight s.order (v,child) := by
      unfold frameWeight
      split <;> omega
    omega

theorem round_ok (s s' : Search f) (between : Between s base) (moved : s.round = some s') :
    Between s' base ∧ s'.remaining < s.remaining := by
  unfold round at moved
  cases between with
  | @entering v rest work fresh ok turns =>
    rw [work] at moved
    cases moved
    obtain ⟨kept,lower⟩ := advance_ok (enter_ok ok fresh) turns
    refine ⟨kept,Nat.lt_of_lt_of_le lower ?_⟩
    have same : rest.map (frameWeight (s.enter v).order) = rest.map (frameWeight s.order) := by
      apply map_congr_left
      intro frame member
      have differs : frame.1 ≠ v := fun here => ok.frames.opened frame member (here ▸ fresh)
      simp [frameWeight,enter,differs]
    rw [remaining,work,toScan_enter fresh,map_cons,map_cons,sum_cons,sum_cons,same]
    have weight : frameWeight (s.enter v).order (v,0) = 2 * (f.succ v).length + 1 := by simp [frameWeight,enter]
    have waiting : frameWeight s.order (v,0) = 1 := by simp [frameWeight,fresh]
    omega
  | open_ ok turns =>
    cases work : s.work with
    | nil => simp [work] at moved
    | cons top rest =>
      obtain ⟨v,child⟩ := top
      rw [work] at moved ok turns
      cases moved
      rw [if_neg (Nat.ne_of_gt (turns (v,child) (by simp)))]
      rw [remaining.eq_def s,work]
      exact advance_ok ok (forall_mem_cons.mp turns).2

theorem round_order (moved : s.round = some s') (u : Fin f.count)
    (known : s.order u ≠ none ∨ ∃ rest, s.work = (u,0) :: rest) : s'.order u ≠ none := by
  unfold round at moved
  cases work : s.work with
  | nil => simp [work] at moved
  | cons top rest =>
    obtain ⟨v,child⟩ := top
    rw [work] at moved
    cases moved
    rw [advance_order]
    rcases known with old | ⟨_,first⟩
    · split
      · by_cases here : u = v
        · simp [enter,here]
        · simpa [enter,here] using old
      · exact old
    · rw [work] at first
      cases first
      simp [enter]

structure Idle (s : Search f) : Prop where
  below : ∀ v number, s.order v = some number → number < s.counter
  empty : s.stack = []
  off : ∀ v, s.onStack v = false
  finished : ∀ v, s.order v ≠ none → ∀ w ∈ f.succ v, s.order w ≠ none
  found : ∀ v, s.order v ≠ none → Relation.TransGen (Edge f) v v → s.cyclic v = true
  marked : ∀ v, s.cyclic v = true → Relation.TransGen (Edge f) v v

theorem Idle.start (idle : Idle s) (root : Fin f.count) : Ok {s with work:=[(root,0)]} s.counter [root] [] := by
  refine ⟨Nat.le_refl _,idle.below,?_,?_,?_,?_,?_,idle.marked,?_,by simp,fun _ _ => rfl,by simp⟩
  · intro v
    simp [idle.off v,idle.empty]
  · simp [idle.empty]
  · simp [idle.empty]
  · exact fun v done w edge => ⟨idle.finished v done.1 w edge,idle.off w⟩
  · exact fun v done => idle.found v done.1
  · dsimp only
    rw [idle.empty]
    exact .nil

theorem Ok.idle (ok : Ok s base [] []) : Idle s := by
  have frames := ok.frames
  generalize stack : s.stack = contents at frames
  cases frames
  have off : ∀ v, s.onStack v = false := by
    intro v
    rw [← Bool.not_eq_true,ok.seen v,stack]
    simp
  exact ⟨ok.below,stack,off,fun v known w edge => (ok.finished v ⟨known,off v⟩ w edge).1,
    fun v known => ok.found v ⟨known,off v⟩,ok.marked⟩

end Search

open Search

theorem toScan_le (order : Fin f.count → Option Nat) :
    toScan order ≤ 2 * ((List.finRange f.count).map fun v => (f.succ v).length).sum := by
  have all : toScan order ≤ ∑ v, 2 * (f.succ v).length := by
    apply Finset.sum_le_sum
    intro v _
    split
    · exact Nat.le_refl _
    · exact Nat.zero_le _
  rwa [← Finset.mul_sum,Fin.sum_univ_def] at all

variable {f} in
theorem searchFrom_ok (idle : s.Idle) (root : Fin f.count) :
    (f.searchFrom s root).Idle ∧ ∀ v, s.order v ≠ none ∨ v = root → (f.searchFrom s root).order v ≠ none := by
  unfold searchFrom
  split
  · rename_i fresh
    have entering : ({s with work:=[(root,0)]} : Search f).Between s.counter :=
      .entering rfl fresh (idle.start root) (by simp)
    have bounded : ({s with work:=[(root,0)]} : Search f).remaining ≤ f.searchFuel := by
      have scans := toScan_le f s.order
      simp only [remaining,map_cons,map_nil,sum_cons,sum_nil,frameWeight,fresh,if_true,searchFuel]
      omega
    obtain ⟨⟨between,kept⟩,ended⟩ := Loop.run_ends
      (fun s' : Search f => s'.Between s.counter ∧
          ∀ v, s.order v ≠ none ∨ v = root → s'.order v ≠ none ∨ ∃ rest, s'.work = (v,0) :: rest)
      remaining
      (fun now next holds moved =>
          have done := round_ok now next holds.1 moved
          ⟨⟨done.1,fun v known => .inl (round_order moved v (holds.2 v known))⟩,done.2⟩)
      f.searchFuel {s with work:=[(root,0)]}
      ⟨entering,fun v known => known.imp_right fun same => ⟨[],by rw [same]⟩⟩ bounded
    generalize Loop.run Search.round f.searchFuel {s with work:=[(root,0)]} = last at between kept ended
    have work : last.work = [] := by
      unfold Search.round at ended
      split at ended
      · assumption
      · cases ended
    refine ⟨?_,fun v known => (kept v known).resolve_right (by simp [work])⟩
    cases between with
    | entering pending => simp [work] at pending
    | open_ ok _ =>
      rw [work] at ok
      exact ok.idle
  · rename_i known
    exact ⟨idle,fun v old => old.elim id fun same => same ▸ known⟩

variable {f} in
theorem searches_ok (roots : List (Fin f.count)) (idle : s.Idle) :
    (roots.foldl f.searchFrom s).Idle ∧ ∀ v, s.order v ≠ none ∨ v ∈ roots →
    (roots.foldl f.searchFrom s).order v ≠ none := by
  induction roots generalizing s with
  | nil => exact ⟨idle,fun v known => known.resolve_right (by simp)⟩
  | cons root rest ih =>
    obtain ⟨idle',kept⟩ := searchFrom_ok idle root
    obtain ⟨final,all⟩ := ih idle'
    refine ⟨final,?_⟩
    intro v known
    apply all
    rcases known with old | member
    · exact .inl (kept v (.inl old))
    · rcases mem_cons.mp member with here | later
      · exact .inl (kept v (.inr here))
      · exact .inr later

theorem searched : ((List.finRange f.count).foldl f.searchFrom {}).Idle ∧
    ∀ v, ((List.finRange f.count).foldl f.searchFrom {}).order v ≠ none := by
  obtain ⟨idle,all⟩ := searches_ok (List.finRange f.count) (s:={}) ⟨by simp,rfl,fun _ => rfl,by simp,by simp,by simp⟩
  exact ⟨idle,fun v => all v (.inr (mem_finRange v))⟩

variable {f} in
theorem cyclic_of_cycle (cycle : Relation.TransGen (Edge f) v v) : f.cyclic v = true :=
  f.searched.1.found v (f.searched.2 v) cycle

theorem cyclic_iff_on_cycle (f : Function) (v : Fin f.count) : f.cyclic v = true ↔ Relation.TransGen (Edge f) v v :=
  ⟨f.searched.1.marked v,cyclic_of_cycle⟩

end Function

end Psat.Predicates
