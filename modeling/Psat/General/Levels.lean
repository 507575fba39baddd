import Psat.General.Walks

namespace Psat.General.Levels
open List Walks
open Prod (fst snd mk)

-- An item met one link away, or two, that enters the walk or not.
structure Meeting (κ : Type) where
  source : κ
  target : κ
  far : Bool
  enters : Bool

def Meeting.steps {κ : Type} (meeting : Meeting κ) : Nat := if meeting.far then 2 else 1

-- A walk that takes up all queued items of the least depth at once.
structure Walk (κ : Type) where
  queue : List (κ × Nat)
  queued : List κ
  taken : List (κ × Nat) := []
  depth : κ → Option Nat := fun _ => none
  links : List (κ × κ) := []

def lower {κ : Type} [DecidableEq κ] (depth : κ → Option Nat) (key : κ) (value : Nat) : κ → Option Nat :=
  fun other => if other = key then some ((depth key).elim value (min · value)) else depth other

section
variable [DecidableEq κ] (meetings : κ → List (Meeting κ)) (limit : Nat)

def enqueue (walk : Walk κ) (key : κ) (depth : Nat) : Walk κ :=
  if key ∈ walk.queued ∨ limit < depth then walk
  else {walk with queue:=walk.queue ++ [(key,depth)],queued:=walk.queued ++ [key]}

def note (depth : Nat) (walk : Walk κ) (meeting : Meeting κ) : Walk κ :=
  let noted : Walk κ :=
    {walk with depth:=lower walk.depth meeting.target (depth + meeting.steps),
               links:=walk.links ++ [(meeting.source,meeting.target)]}
  if meeting.enters then enqueue limit noted meeting.target (depth + meeting.steps) else noted

def take (walk : Walk κ) (entry : κ × Nat) : Walk κ :=
  (meetings entry.1).foldl (note limit entry.2)
      {walk with taken:=walk.taken ++ [entry],depth:=lower walk.depth entry.1 entry.2}

def least (first : Nat) (rest : List (κ × Nat)) : Nat := rest.foldl (fun low entry => min low entry.2) first

def pending (walk : Walk κ) (target : Nat) : List (κ × Nat) :=
  walk.queue.filter fun entry =>
    decide (entry.2 = target) && decide (entry.1 ∉ walk.taken.map fst) && decide (entry.2 ≤ limit)

def drained (walk : Walk κ) (target : Nat) : Walk κ := {walk with queue:=walk.queue.filter (·.2 ≠ target)}

def round (walk : Walk κ) : Option (Walk κ) :=
  match walk.queue with
  | [] => none
  | first :: rest =>
    let target := least first.2 rest
    some ((pending limit walk target).foldl (take meetings limit) (drained walk target))

def start (root : κ) : Walk κ := {queue:=[(root,0)],queued:=[root]}

-- Everything a walk without a limit could take up.
inductive Reached (root : κ) : κ → Prop
  | root : Reached root root
  | met {key : κ} {meeting : Meeting κ} (reached : Reached root key) (member : meeting ∈ meetings key)
    (entered : meeting.enters = true) : Reached root meeting.target

variable {meetings limit}

omit [DecidableEq κ] in
theorem steps_pos (meeting : Meeting κ) : 0 < meeting.steps := by
  unfold Meeting.steps
  split <;> omega

omit [DecidableEq κ] in
theorem steps_le (meeting : Meeting κ) : meeting.steps ≤ 2 := by
  unfold Meeting.steps
  split <;> omega

-- Shown at that depth or nearer.
def Below (depth : κ → Option Nat) (key : κ) (bound : Nat) : Prop := ∃ value ≤ bound, depth key = some value

omit [DecidableEq κ] in
theorem Below.mono (below : Below depth key bound) (more : bound ≤ other) : Below depth key other := by
  obtain ⟨value,small,found⟩ := below
  exact ⟨value,Nat.le_trans small more,found⟩

theorem below_lower {key other : κ} {value bound : Nat} :
    Below (lower depth key value) other bound ↔ Below depth other bound ∨ key = other ∧ value ≤ bound := by
  unfold Below lower
  by_cases same : other = key
  · subst same
    cases depth other with
    | none => simp
    | some held =>
      have nearer : min held value ≤ bound ↔ held ≤ bound ∨ value ≤ bound := by omega
      simp [nearer]
  · have apart : ¬ key = other := fun equal => same equal.symm
    simp [same,apart]

structure Noted (limit depth : Nat) (before : Walk κ) (met : List (Meeting κ)) (after : Walk κ) (new : List (κ × Nat)) :
    Prop where
  queue : after.queue = before.queue ++ new
  queued : after.queued = before.queued ++ new.map fst
  taken : after.taken = before.taken
  links : after.links = before.links ++ met.map fun meeting => (meeting.source,meeting.target)
  fresh : ∀ entry ∈ new, ∃ meeting ∈ met, entry = (meeting.target,depth + meeting.steps) ∧ meeting.enters = true ∧
    depth + meeting.steps ≤ limit ∧ meeting.target ∉ before.queued
  entered : ∀ meeting ∈ met, meeting.enters = true → depth + meeting.steps ≤ limit → meeting.target ∈ after.queued
  below : ∀ key bound, Below after.depth key bound ↔
    Below before.depth key bound ∨ ∃ meeting ∈ met, meeting.target = key ∧ depth + meeting.steps ≤ bound

theorem note_spec (depth : Nat) (walk : Walk κ) (meeting : Meeting κ) :
    ∃ new, Noted limit depth walk [meeting] (note limit depth walk meeting) new := by
  have below (key : κ) (bound : Nat) : Below (lower walk.depth meeting.target (depth + meeting.steps)) key bound ↔
      Below walk.depth key bound ∨ ∃ met ∈ [meeting], met.target = key ∧ depth + met.steps ≤ bound := by
    rw [below_lower]
    simp
  unfold note
  by_cases enter : meeting.enters = true
  · rw [if_pos enter]
    unfold enqueue
    by_cases refused : meeting.target ∈ walk.queued ∨ limit < depth + meeting.steps
    · rw [if_pos refused]
      refine ⟨[],by simp,by simp,rfl,rfl,by simp,?_,below⟩
      intro met member _ within
      rw [mem_singleton.mp member] at within ⊢
      exact refused.resolve_right (Nat.not_lt.mpr within)
    · rw [if_neg refused]
      obtain ⟨unknown,within⟩ := not_or.mp refused
      refine ⟨[(meeting.target,depth + meeting.steps)],rfl,rfl,rfl,rfl,?_,?_,below⟩
      · intro entry member
        rw [mem_singleton.mp member]
        exact ⟨meeting,mem_singleton_self _,rfl,enter,Nat.not_lt.mp within,unknown⟩
      · intro met member _ _
        rw [mem_singleton.mp member]
        exact mem_append_right _ (mem_singleton_self _)
  · rw [if_neg enter]
    refine ⟨[],by simp,by simp,rfl,rfl,by simp,?_,below⟩
    intro met member entered _
    rw [mem_singleton.mp member] at entered
    exact absurd entered enter

theorem notes_spec (depth : Nat) (met : List (Meeting κ)) (walk : Walk κ) :
    ∃ new, Noted limit depth walk met (met.foldl (note limit depth) walk) new := by
  induction met generalizing walk with
  | nil => exact ⟨[],by simp,by simp,rfl,by simp,by simp,by simp,by simp⟩
  | cons first rest ih =>
    obtain ⟨one,here⟩ := @note_spec κ _ limit depth walk first
    obtain ⟨more,later⟩ := ih (note limit depth walk first)
    refine ⟨one ++ more,?_,?_,?_,?_,?_,?_,?_⟩
    · rw [foldl_cons,later.queue,here.queue,append_assoc]
    · rw [foldl_cons,later.queued,here.queued,append_assoc,map_append]
    · exact later.taken.trans here.taken
    · rw [foldl_cons,later.links,here.links,append_assoc]
      rfl
    · intro entry member
      rcases mem_append.mp member with inOne | inMore
      · obtain ⟨meeting,is,shape⟩ := here.fresh entry inOne
        rw [mem_singleton.mp is] at shape
        exact ⟨first,mem_cons_self,shape⟩
      · obtain ⟨meeting,inside,shape,enter,within,unknown⟩ := later.fresh entry inMore
        refine ⟨meeting,mem_cons_of_mem _ inside,shape,enter,within,fun known => unknown ?_⟩
        rw [here.queued]
        exact mem_append_left _ known
    · intro meeting member enter within
      rcases mem_cons.mp member with is | inside
      · subst is
        rw [foldl_cons,later.queued]
        exact mem_append_left _ (here.entered meeting (mem_singleton_self _) enter within)
      · exact later.entered meeting inside enter within
    · intro key bound
      rw [foldl_cons,later.below,here.below,or_assoc]
      simp

-- Where an entry of the queue comes from: the root, or a meeting of an item taken up.
def Origin (meetings : κ → List (Meeting κ)) (limit : Nat) (root : κ) (taken : List (κ × Nat)) (entry : κ × Nat) :
    Prop :=
  entry = (root,0) ∨ ∃ from_ ∈ taken, ∃ meeting ∈ meetings from_.1, entry = (meeting.target,from_.2 + meeting.steps) ∧
    meeting.enters = true ∧ from_.2 + meeting.steps ≤ limit ∧ meeting.target ≠ root

omit [DecidableEq κ] in
theorem Origin.mono (origin : Origin meetings limit root taken entry) :
    Origin meetings limit root (taken ++ more) entry := by
  rcases origin with seed | ⟨from_,member,rest⟩
  · exact .inl seed
  · exact .inr ⟨from_,mem_append_left _ member,rest⟩

-- Shown because it was taken up, or because it was met.
def Found (meetings : κ → List (Meeting κ)) (taken : List (κ × Nat)) (key : κ) (bound : Nat) : Prop :=
  ∃ entry ∈ taken, entry.1 = key ∧ entry.2 ≤ bound ∨
    ∃ meeting ∈ meetings entry.1, meeting.target = key ∧ entry.2 + meeting.steps ≤ bound

omit [DecidableEq κ] in
theorem found_append : Found meetings (taken ++ more) key bound ↔
    Found meetings taken key bound ∨ Found meetings more key bound := by
  unfold Found
  simp only [mem_append,or_and_right,exists_or]

-- Between two items of a level: `waiting` is still to be taken up.
structure Kept (meetings : κ → List (Meeting κ)) (limit : Nat) (root : κ) (waiting : List (κ × Nat)) (walk : Walk κ) :
    Prop where
  entries : ∀ entry, entry ∈ walk.queue ∨ entry ∈ waiting ∨ entry ∈ walk.taken →
    Origin meetings limit root walk.taken entry
  seeded : root ∈ walk.queued
  below : ∀ key bound, Below walk.depth key bound ↔ Found meetings walk.taken key bound
  entered : ∀ entry ∈ walk.taken, ∀ meeting ∈ meetings entry.1, meeting.enters = true →
    entry.2 + meeting.steps ≤ limit → meeting.target ∈ walk.queued
  links : ∀ link, link ∈ walk.links ↔
    ∃ from_ ∈ walk.taken, ∃ meeting ∈ meetings from_.1, (meeting.source,meeting.target) = link
  known : ∀ key ∈ walk.queued, ∃ depth, (key,depth) ∈ walk.queue ∨ (key,depth) ∈ waiting ∨ (key,depth) ∈ walk.taken

variable {walk : Walk κ} {root : κ}

omit [DecidableEq κ] in
theorem start_kept : Kept meetings limit root [] (start root) where
  entries entry member := by
    rcases member with queued | none | none
    · exact .inl (mem_singleton.mp queued)
    · cases none
    · cases none
  seeded := mem_singleton_self root
  below key bound := by simp [start,Below,Found]
  entered _ member := by cases member
  links link := by simp [start]
  known key member := ⟨0,.inl (by simp [start,mem_singleton.mp member])⟩

theorem take_spec (walk : Walk κ) (entry : κ × Nat) : ∃ new, Noted limit entry.2
    {walk with taken:=walk.taken ++ [entry],depth:=lower walk.depth entry.1 entry.2} (meetings entry.1)
    (take meetings limit walk entry) new :=
  notes_spec _ _ _

theorem takes_taken (entries : List (κ × Nat)) (walk : Walk κ) :
    (entries.foldl (take meetings limit) walk).taken = walk.taken ++ entries := by
  induction entries generalizing walk with
  | nil => exact (append_nil _).symm
  | cons first rest ih =>
    obtain ⟨_,spec⟩ := @take_spec κ _ meetings limit walk first
    rw [foldl_cons,ih,spec.taken,append_assoc]
    rfl

theorem take_taken (walk : Walk κ) (entry : κ × Nat) : (take meetings limit walk entry).taken = walk.taken ++ [entry] :=
  takes_taken [entry] walk

theorem takes_queue (entries : List (κ × Nat)) (walk : Walk κ)
    (member : other ∈ (entries.foldl (take meetings limit) walk).queue) :
    other ∈ walk.queue ∨
      ∃ entry ∈ entries, ∃ meeting ∈ meetings entry.1, other = (meeting.target,entry.2 + meeting.steps) := by
  induction entries generalizing walk with
  | nil => exact .inl member
  | cons first rest ih =>
    obtain ⟨new,spec⟩ := @take_spec κ _ meetings limit walk first
    rcases ih _ member with old | ⟨entry,inside,met⟩
    · rw [spec.queue,mem_append] at old
      rcases old with old | fresh
      · exact .inl old
      · obtain ⟨meeting,inside,shape,_⟩ := spec.fresh other fresh
        exact .inr ⟨first,mem_cons_self,meeting,inside,shape⟩
    · exact .inr ⟨entry,mem_cons_of_mem _ inside,met⟩

theorem Kept.take (kept : Kept meetings limit root (entry :: waiting) walk) :
    Kept meetings limit root waiting (take meetings limit walk entry) := by
  obtain ⟨new,spec⟩ := @take_spec κ _ meetings limit walk entry
  have taken := @take_taken κ _ meetings limit walk entry
  have here : entry ∈ walk.taken ++ [entry] := mem_append_right _ (mem_singleton_self _)
  have grows (key : κ) (member : key ∈ walk.queued) : key ∈ (Levels.take meetings limit walk entry).queued := by
    rw [spec.queued]
    exact mem_append_left _ member
  refine ⟨?_,grows root kept.seeded,?_,?_,?_,?_⟩
  · intro other member
    rw [taken,spec.queue] at member
    rw [taken]
    have place : other ∈ new ∨ other ∈ walk.queue ∨ other ∈ entry :: waiting ∨ other ∈ walk.taken := by
      simp only [mem_append,mem_cons] at member ⊢
      tauto
    rcases place with fresh | old
    · obtain ⟨meeting,inside,shape,enter,within,unknown⟩ := spec.fresh other fresh
      exact .inr ⟨entry,here,meeting,inside,shape,enter,within,fun same => unknown (same ▸ kept.seeded)⟩
    · exact (kept.entries other old).mono
  · intro key bound
    rw [spec.below,taken,found_append,below_lower,kept.below]
    simp only [Found,mem_singleton,exists_eq_left]
    rw [or_assoc]
  · rw [taken,forall_mem_append,forall_mem_singleton]
    exact ⟨fun other old meeting inside enter within => grows _ (kept.entered other old meeting inside enter within),
      spec.entered⟩
  · intro link
    rw [spec.links,taken,mem_append,kept.links,mem_map]
    simp only [mem_append,mem_singleton,or_and_right,exists_or,exists_eq_left]
  · rw [spec.queued,spec.queue,taken,forall_mem_append]
    constructor
    · intro key old
      obtain ⟨depth,place⟩ := kept.known key old
      refine ⟨depth,?_⟩
      simp only [mem_append,mem_cons] at place ⊢
      tauto
    · intro key fresh
      obtain ⟨other,inside,same⟩ := mem_map.mp fresh
      exact ⟨other.2,.inl (mem_append_right _ (same ▸ inside))⟩

theorem Kept.takes (kept : Kept meetings limit root waiting walk) :
    Kept meetings limit root [] (waiting.foldl (Levels.take meetings limit) walk) := by
  induction waiting generalizing walk with
  | nil => exact kept
  | cons entry rest ih => exact ih kept.take

omit [DecidableEq κ] in
theorem Kept.within (kept : Kept meetings limit root waiting walk)
    (member : entry ∈ walk.queue ∨ entry ∈ waiting ∨ entry ∈ walk.taken) : entry.2 ≤ limit := by
  rcases kept.entries entry member with seed | ⟨from_,_,meeting,_,shape,_,small,_⟩
  · rw [seed]
    exact Nat.zero_le _
  · rw [shape]
    exact small

theorem Kept.drain (kept : Kept meetings limit root [] walk) (target : Nat) :
    Kept meetings limit root (pending limit walk target) (drained walk target) where
  entries entry member := by
    rcases member with inQueue | inWaiting | inTaken
    · exact kept.entries entry (.inl (mem_of_mem_filter inQueue))
    · exact kept.entries entry (.inl (mem_of_mem_filter inWaiting))
    · exact kept.entries entry (.inr (.inr inTaken))
  seeded := kept.seeded
  below := kept.below
  entered := kept.entered
  links := kept.links
  known key member := by
    rcases kept.known key member with ⟨depth,inQueue | none | inTaken⟩
    · by_cases now : depth = target
      · by_cases done : key ∈ walk.taken.map fst
        · obtain ⟨entry,inside,same⟩ := mem_map.mp done
          exact ⟨entry.2,.inr (.inr (same ▸ inside))⟩
        · have small := kept.within (.inl inQueue)
          refine ⟨depth,.inr (.inl (mem_filter.mpr ⟨inQueue,?_⟩))⟩
          simp only [Bool.and_eq_true,decide_eq_true_eq]
          exact ⟨⟨now,done⟩,small⟩
      · exact ⟨depth,.inl (mem_filter.mpr ⟨inQueue,decide_eq_true now⟩)⟩
    · cases none
    · exact ⟨depth,.inr (.inr inTaken)⟩

theorem Kept.round (kept : Kept meetings limit root [] walk) (step : round meetings limit walk = some onward) :
    Kept meetings limit root [] onward := by
  unfold Levels.round at step
  split at step
  · cases step
  · cases step
    exact (kept.drain _).takes

omit [DecidableEq κ] in
theorem Kept.reached (kept : Kept meetings limit root waiting walk)
    (member : entry ∈ walk.queue ∨ entry ∈ waiting ∨ entry ∈ walk.taken) : Reached meetings root entry.1 := by
  obtain ⟨key,depth⟩ := entry
  induction depth using Nat.strongRecOn generalizing key with
  | ind depth ih =>
    rcases kept.entries _ member with seed | ⟨from_,taken,meeting,inside,shape,enter,_,_⟩
    · rw [(mk.inj seed).1]
      exact .root
    · obtain ⟨rfl,rfl⟩ := mk.inj shape
      have earlier := Nat.lt_add_of_pos_right (n:=from_.2) (steps_pos meeting)
      exact .met (ih from_.2 earlier from_.1 (.inr (.inr taken))) inside enter

omit [DecidableEq κ] in
theorem least_le (first : Nat) (rest : List (κ × Nat)) : least first rest ≤ first ∧
    ∀ entry ∈ rest, least first rest ≤ entry.2 := by
  induction rest generalizing first with
  | nil => exact ⟨Nat.le_refl _,by simp⟩
  | cons head tail ih =>
    obtain ⟨low,all⟩ := ih (min first head.2)
    refine ⟨Nat.le_trans low (Nat.min_le_left _ _),?_⟩
    intro entry member
    rcases mem_cons.mp member with is | later
    · rw [is]
      exact Nat.le_trans low (Nat.min_le_right _ _)
    · exact all entry later

omit [DecidableEq κ] in
theorem least_mem (first : κ × Nat) (rest : List (κ × Nat)) : ∃ entry ∈ first :: rest, entry.2 = least first.2 rest :=
    by
  induction rest generalizing first with
  | nil => exact ⟨first,mem_cons_self,rfl⟩
  | cons head tail ih =>
    rcases Nat.le_total first.2 head.2 with keeps | falls
    · obtain ⟨entry,member,same⟩ := ih first
      refine ⟨entry,?_,?_⟩
      · rcases mem_cons.mp member with is | later
        · exact is ▸ mem_cons_self
        · exact mem_cons_of_mem _ (mem_cons_of_mem _ later)
      · change entry.2 = least (min first.2 head.2) tail
        rw [Nat.min_eq_left keeps,same]
    · obtain ⟨entry,member,same⟩ := ih head
      refine ⟨entry,mem_cons_of_mem _ member,?_⟩
      change entry.2 = least (min first.2 head.2) tail
      rw [Nat.min_eq_right falls,same]

def remaining (items : List κ) (walk : Walk κ) : Nat := (items.filter (· ∉ walk.queued)).length + walk.queue.length

theorem note_remaining (inside : meeting.target ∈ items) : remaining items
    (note limit depth walk meeting) ≤ remaining items walk := by
  unfold note enqueue
  dsimp only
  split
  · split
    · exact Nat.le_refl _
    · rename_i refused
      have unknown := (not_or.mp refused).1
      unfold remaining
      have narrower : items.filter (· ∉ walk.queued ++ [meeting.target]) = (items.filter (· ∉ walk.queued)).filter
        (· ≠ meeting.target) := by
        simp [and_comm]
      have fewer : ((items.filter (· ∉ walk.queued)).filter (· ≠ meeting.target)).length <
        (items.filter (· ∉ walk.queued)).length := by
        refine length_filter_lt_length_iff_exists.mpr ⟨meeting.target,?_,by simp⟩
        exact mem_filter.mpr ⟨inside,decide_eq_true unknown⟩
      rw [narrower,length_append,length_singleton]
      omega
  · exact Nat.le_refl _

theorem take_remaining (inside : ∀ meeting ∈ meetings entry.1, meeting.target ∈ items) :
    remaining items (take meetings limit walk entry) ≤ remaining items walk := by
  have notes (met : List (Meeting κ)) (inside : ∀ meeting ∈ met, meeting.target ∈ items) (walk : Walk κ) :
    remaining items (met.foldl (note limit entry.2) walk) ≤ remaining items walk := by
    induction met generalizing walk with
    | nil => exact Nat.le_refl _
    | cons first rest ih =>
      exact Nat.le_trans (ih (forall_mem_cons.mp inside).2 _)
        (note_remaining (inside first mem_cons_self))
  exact notes _ inside _

theorem takes_remaining (entries : List (κ × Nat))
    (inside : ∀ entry ∈ entries, ∀ meeting ∈ meetings entry.1, meeting.target ∈ items)
    (walk : Walk κ) : remaining items (entries.foldl (take meetings limit) walk) ≤ remaining items walk := by
  induction entries generalizing walk with
  | nil => exact Nat.le_refl _
  | cons first rest ih =>
    exact Nat.le_trans (ih (forall_mem_cons.mp inside).2 _)
      (take_remaining (inside first mem_cons_self))

theorem round_remaining (kept : Kept meetings limit root [] walk)
    (closed : ∀ key, Reached meetings root key → ∀ meeting ∈ meetings key, meeting.target ∈ items)
    (step : round meetings limit walk = some onward) : remaining items onward < remaining items walk := by
  unfold Levels.round at step
  split at step
  · cases step
  · rename_i first rest shape
    cases step
    refine Nat.lt_of_le_of_lt (takes_remaining _ ?_ _) ?_
    · intro entry member
      exact closed _ (kept.reached (.inl (mem_of_mem_filter member)))
    · obtain ⟨lowest,inside,is⟩ := least_mem first rest
      have fewer : (walk.queue.filter (·.2 ≠ least first.2 rest)).length < walk.queue.length := by
        refine length_filter_lt_length_iff_exists.mpr ⟨lowest,shape ▸ inside,by simp [is]⟩
      unfold remaining drained
      dsimp only
      omega

theorem run_ends (closed : ∀ key, Reached meetings root key → ∀ meeting ∈ meetings key, meeting.target ∈ items)
    (rounds : Nat) (enough : remaining items (start root) ≤ rounds) :
    Kept meetings limit root [] (Loop.run (round meetings limit) rounds (start root)) ∧
      (Loop.run (round meetings limit) rounds (start root)).queue = [] := by
  obtain ⟨kept,ended⟩ := Loop.run_ends (fun walk => Kept meetings limit root [] walk) (remaining items)
    (fun walk next kept step => ⟨kept.round step,round_remaining kept closed step⟩) rounds
      (start root) start_kept enough
  refine ⟨kept,?_⟩
  unfold Levels.round at ended
  split at ended
  · assumption
  · cases ended

omit [DecidableEq κ] in
theorem Kept.queued_done (kept : Kept meetings limit root [] walk) (done : walk.queue = [])
    (queued : key ∈ walk.queued) : ∃ depth, (key,depth) ∈ walk.taken := by
  rcases kept.known key queued with ⟨depth,inQueue | none | taken⟩
  · rw [done] at inQueue
    cases inQueue
  · cases none
  · exact ⟨depth,taken⟩

-- Near meetings lie at the item itself, far ones behind a near one.
structure Behind (meetings : κ → List (Meeting κ)) : Prop where
  near : ∀ key, ∀ meeting ∈ meetings key, meeting.far = false → meeting.source = key
  between : ∀ key, ∀ meeting ∈ meetings key, meeting.far = true →
    ∃ near ∈ meetings key, near.far = false ∧ near.target = meeting.source

-- No link leads more than one level down.
def Relaxed (walk : Walk κ) : Prop :=
  ∀ link ∈ walk.links, ∀ bound, Below walk.depth link.1 bound → Below walk.depth link.2 (bound + 1)

-- What the levels so far have settled: nothing they linked can still come nearer.
structure Leveled (level : Nat) (walk : Walk κ) : Prop where
  ahead : ∀ entry ∈ walk.queue, level ≤ entry.2
  shown : ∀ entry ∈ walk.queue, 0 < entry.2 → Below walk.depth entry.1 entry.2
  linked : ∀ link ∈ walk.links, Below walk.depth link.1 level ∧ Below walk.depth link.2 (level + 1)

section
variable (meetings) (limit)

-- Shown that near before a level, or about to be taken up that near.
def Placed (walk : Walk κ) (target : Nat) (key : κ) (bound : Nat) : Prop :=
  Below walk.depth key bound ∨ (key,target) ∈ pending limit walk target ∧ target ≤ bound

-- What a level meets behind an item that is already nearer than the level is itself near enough.
structure Fair (walk : Walk κ) (target : Nat) : Prop where
  near : ∀ entry ∈ pending limit walk target, ∀ meeting ∈ meetings entry.1, meeting.far = false →
    ∀ bound < target, Placed limit walk target entry.1 bound → Placed limit walk target meeting.target (bound + 1)
  far : ∀ entry ∈ pending limit walk target, ∀ meeting ∈ meetings entry.1, meeting.far = true →
    ∀ bound ≤ target, Placed limit walk target meeting.source bound →
      Placed limit walk target meeting.target (bound + 1) ∨ bound = target ∧
        ∃ other ∈ pending limit walk target, ∃ near ∈ meetings other.1, near.far = false ∧
          near.target = meeting.target

end

theorem pending_depth (member : entry ∈ pending limit walk target) : entry.2 = target ∧ entry ∈ walk.queue := by
  obtain ⟨inside,conditions⟩ := mem_filter.mp member
  simp only [Bool.and_eq_true,decide_eq_true_eq] at conditions
  exact ⟨conditions.1.1,inside⟩

section
variable (kept : Kept meetings limit root [] walk)
include kept

theorem below_after : Below ((pending limit walk target).foldl (take meetings limit) (drained walk target)).depth
    key bound ↔
    Placed limit walk target key bound ∨
      ∃ entry ∈ pending limit walk target, ∃ meeting ∈ meetings entry.1, meeting.target = key ∧
        target + meeting.steps ≤ bound := by
  rw [(kept.drain target).takes.below,takes_taken,found_append]
  unfold Placed
  rw [kept.below,or_assoc]
  refine or_congr Iff.rfl ?_
  constructor
  · rintro ⟨⟨other,depth⟩,inside,⟨rfl,small⟩ | met⟩
    · obtain rfl : depth = target := (pending_depth inside).1
      exact .inl ⟨inside,small⟩
    · obtain rfl : depth = target := (pending_depth inside).1
      exact .inr ⟨_,inside,met⟩
  · rintro (⟨inside,small⟩ | ⟨⟨other,depth⟩,inside,met⟩)
    · exact ⟨_,inside,.inl ⟨rfl,small⟩⟩
    · obtain rfl : depth = target := (pending_depth inside).1
      exact ⟨_,inside,.inr met⟩

theorem links_after : link ∈ ((pending limit walk target).foldl (take meetings limit) (drained walk target)).links ↔
    link ∈ walk.links ∨
      ∃ entry ∈ pending limit walk target, ∃ meeting ∈ meetings entry.1, (meeting.source,meeting.target) = link := by
  rw [(kept.drain target).takes.links,takes_taken,kept.links]
  simp only [drained,mem_append,or_and_right,exists_or]

theorem below_nearer (near : bound ≤ target) :
    Below ((pending limit walk target).foldl (take meetings limit) (drained walk target)).depth key bound ↔
      Placed limit walk target key bound := by
  rw [below_after kept]
  constructor
  · rintro (placed | ⟨_,_,meeting,_,_,small⟩)
    · exact placed
    · have := steps_pos meeting
      omega
  · exact .inl

-- A link of this level goes one level down exactly where its two ends are placed so.
theorem new_relaxed (behind : Behind meetings) :
    (∀ entry ∈ pending limit walk target, ∀ meeting ∈ meetings entry.1, ∀ bound,
      Below ((pending limit walk target).foldl (take meetings limit) (drained walk target)).depth meeting.source bound →
        Below ((pending limit walk target).foldl (take meetings limit) (drained walk target)).depth meeting.target
          (bound + 1)) ↔ Fair meetings limit walk target := by
  constructor
  · intro relaxed
    refine ⟨fun entry inside meeting member one bound small placed => ?_,
      fun entry inside meeting member two bound small placed => ?_⟩
    · rw [← behind.near _ meeting member one] at placed
      refine (below_nearer kept small).mp (relaxed entry inside meeting member bound ?_)
      exact (below_nearer kept (Nat.le_of_lt small)).mpr placed
    · have after := relaxed entry inside meeting member bound ((below_nearer kept small).mpr placed)
      rw [below_after kept] at after
      rcases after with placed | ⟨other,inOther,near,inNear,same,close⟩
      · exact .inl placed
      · have positive := steps_pos near
        have far : near.far = false := by
          by_contra far
          have steps : near.steps = 2 := by simp [Meeting.steps,Bool.not_eq_false _ ▸ far]
          omega
        exact .inr ⟨by omega,other,inOther,near,inNear,far,same⟩
  · intro fair entry inside meeting member bound below
    have met (enough : target + meeting.steps ≤ bound + 1) :=
      (below_after kept).mpr (.inr ⟨entry,inside,meeting,member,rfl,enough⟩)
    cases far : meeting.far with
    | false =>
      have steps : meeting.steps = 1 := by simp [Meeting.steps,far]
      by_cases small : bound < target
      · have placed := (below_nearer kept (Nat.le_of_lt small)).mp below
        rw [behind.near _ meeting member far] at placed
        exact (below_nearer kept small).mpr (fair.near entry inside meeting member far bound small placed)
      · exact met (by omega)
    | true =>
      have steps : meeting.steps = 2 := by simp [Meeting.steps,far]
      by_cases small : bound ≤ target
      · have placed := (below_nearer kept small).mp below
        rcases fair.far entry inside meeting member far bound small placed with placed | ⟨same,other,inOther,near,
          inNear,one,goal⟩
        · exact (below_after kept).mpr (.inl placed)
        · have single : near.steps = 1 := by simp [Meeting.steps,one]
          exact (below_after kept).mpr (.inr ⟨other,inOther,near,inNear,goal,by omega⟩)
      · exact met (by omega)

variable (leveled : Leveled level walk) (low : level ≤ target)
include leveled low

-- The links of earlier levels stay as they were.
theorem old_relaxed : (∀ link ∈ walk.links, ∀ bound,
    Below ((pending limit walk target).foldl (take meetings limit) (drained walk target)).depth link.1 bound →
      Below ((pending limit walk target).foldl (take meetings limit) (drained walk target)).depth link.2
        (bound + 1)) ↔ Relaxed walk := by
  refine forall₂_congr fun link inside => forall_congr' fun bound => ?_
  obtain ⟨source,goal⟩ := leveled.linked link inside
  by_cases small : bound < target
  · rw [below_nearer kept (Nat.le_of_lt small),below_nearer kept small]
    have waiting (late : (link.2,target) ∈ pending limit walk target ∧ target ≤ bound + 1) :
        Below walk.depth link.2 (bound + 1) :=
      (leveled.shown _ (pending_depth late.1).2 (by omega)).mono late.2
    refine imp_congr ?_ ?_
    · exact or_iff_left fun late => by omega
    · exact or_iff_left_of_imp waiting
  · have reached : Below walk.depth link.2 (bound + 1) := goal.mono (by omega)
    exact ⟨fun _ _ => reached,fun _ _ => (below_after kept).mpr (.inl (.inl reached))⟩

theorem relaxed_after (behind : Behind meetings) :
    Relaxed ((pending limit walk target).foldl (take meetings limit) (drained walk target)) ↔
      Relaxed walk ∧ Fair meetings limit walk target := by
  rw [← old_relaxed kept leveled low,← new_relaxed kept behind]
  unfold Relaxed
  simp only [links_after kept]
  constructor
  · intro relaxed
    exact ⟨fun link old => relaxed link (.inl old),
      fun entry inside meeting member => relaxed _ (.inr ⟨entry,inside,meeting,member,rfl⟩)⟩
  · rintro ⟨old,new⟩ link (inside | ⟨entry,inside,meeting,member,rfl⟩)
    · exact old link inside
    · exact new entry inside meeting member

theorem leveled_after (behind : Behind meetings) (least : ∀ entry ∈ walk.queue, target ≤ entry.2) :
    Leveled (target + 1) ((pending limit walk target).foldl (take meetings limit) (drained walk target)) := by
  refine ⟨fun other member => ?_,fun other member far => ?_,fun link member => ?_⟩
  · rcases takes_queue _ _ member with old | ⟨entry,inside,meeting,_,rfl⟩
    · obtain ⟨inside,later⟩ := mem_filter.mp old
      have := least other inside
      have : other.2 ≠ target := of_decide_eq_true later
      omega
    · have := (pending_depth inside).1
      have := steps_pos meeting
      dsimp only
      omega
  · rcases takes_queue _ _ member with old | ⟨entry,inside,meeting,met,rfl⟩
    · exact (below_after kept).mpr (.inl (.inl (leveled.shown other (mem_of_mem_filter old) far)))
    · rw [(pending_depth inside).1]
      exact (below_after kept).mpr (.inr ⟨entry,inside,meeting,met,rfl,Nat.le_refl _⟩)
  · rcases (links_after kept).mp member with old | ⟨entry,inside,meeting,met,rfl⟩
    · obtain ⟨source,goal⟩ := leveled.linked link old
      exact ⟨(below_after kept).mpr (.inl (.inl (source.mono (by omega)))),
        (below_after kept).mpr (.inl (.inl (goal.mono (by omega))))⟩
    · have shown (near : Meeting κ) (met : near ∈ meetings entry.1) (steps : Nat) (small : near.steps ≤ steps) :
          Below ((pending limit walk target).foldl (take meetings limit) (drained walk target)).depth near.target
            (target + steps) :=
        (below_after kept).mpr (.inr ⟨entry,inside,near,met,rfl,Nat.add_le_add_left small target⟩)
      refine ⟨?_,shown meeting met 2 (steps_le meeting)⟩
      cases far : meeting.far with
      | false =>
        dsimp only
        rw [behind.near _ meeting met far]
        have same : (entry.1,target) = entry := by rw [← (pending_depth inside).1]
        have here : (entry.1,target) ∈ pending limit walk target := by
          rw [same]
          exact inside
        exact (below_after kept).mpr (.inl (.inr ⟨here,Nat.le_succ _⟩))
      | true =>
        obtain ⟨near,inNear,one,goal⟩ := behind.between _ meeting met far
        dsimp only
        rw [← goal]
        exact shown near inNear 1 (by simp [Meeting.steps,one])

end

omit [DecidableEq κ] in
theorem least_queue (queue : walk.queue = first :: rest) : ∀ entry ∈ walk.queue, least first.2 rest ≤ entry.2 := by
  rw [queue]
  exact forall_mem_cons.mpr (least_le first.2 rest)

-- A level that is over, or one whose meetings are fair.
def FairLevel (meetings : κ → List (Meeting κ)) (limit : Nat) (walk : Walk κ) : Prop :=
  ∀ first rest, walk.queue = first :: rest → Fair meetings limit walk (least first.2 rest)

theorem run_relaxed (behind : Behind meetings) (rounds : Nat) :
    Relaxed (Loop.run (round meetings limit) rounds (start root)) ↔
      ∀ earlier < rounds, FairLevel meetings limit (Loop.run (round meetings limit) earlier (start root)) := by
  have kept (rounds : Nat) : Kept meetings limit root [] (Loop.run (round meetings limit) rounds (start root)) ∧
      ∃ level, Leveled level (Loop.run (round meetings limit) rounds (start root)) := by
    refine Loop.run_keeps (fun walk => Kept meetings limit root [] walk ∧ ∃ level, Leveled level walk) ?_ rounds
      ⟨start_kept,0,fun _ _ => Nat.zero_le _,by simp [start],by simp [start]⟩
    rintro walk next ⟨kept,level,leveled⟩ step
    refine ⟨kept.round step,?_⟩
    unfold Levels.round at step
    split at step
    · cases step
    · rename_i first rest queue
      cases step
      obtain ⟨lowest,inside,is⟩ := least_mem first rest
      have low : level ≤ least first.2 rest := is ▸ leveled.ahead lowest (queue ▸ inside)
      exact ⟨_,leveled_after kept leveled low behind (least_queue queue)⟩
  induction rounds with
  | zero => simp [Loop.run,Relaxed,start]
  | succ rounds ih =>
    obtain ⟨here,level,leveled⟩ := kept rounds
    have one : Relaxed (Loop.run (round meetings limit) (rounds + 1) (start root)) ↔
        Relaxed (Loop.run (round meetings limit) rounds (start root)) ∧
          FairLevel meetings limit (Loop.run (round meetings limit) rounds (start root)) := by
      rw [Loop.run_succ]
      generalize Loop.run (round meetings limit) rounds (start root) = walk at here leveled
      unfold Levels.round FairLevel
      cases queue : walk.queue with
      | nil => simp
      | cons first rest =>
        obtain ⟨lowest,inside,is⟩ := least_mem first rest
        have low : level ≤ least first.2 rest := is ▸ leveled.ahead lowest (queue ▸ inside)
        refine (relaxed_after here leveled low behind).trans (and_congr_right fun _ => ?_)
        constructor
        · intro fair _ _ same
          cases same
          exact fair
        · exact fun fair => fair _ _ rfl
    refine one.trans ((and_congr_left' ih).trans ?_)
    constructor
    · rintro ⟨before,now⟩ earlier sooner
      rcases Nat.lt_succ_iff_lt_or_eq.mp sooner with sooner | same
      · exact before earlier sooner
      · exact same ▸ now
    · exact fun all => ⟨fun earlier sooner => all earlier (Nat.lt_succ_of_lt sooner),all rounds (Nat.lt_succ_self _)⟩

def nextOf (links : List (κ × κ)) (key : κ) : List κ := (links.filter (·.1 = key)).map snd

theorem mem_nextOf {key other : κ} : other ∈ nextOf links key ↔ (key,other) ∈ links := by
  simp [nextOf]

def Shortest (root : κ) (links : List (κ × κ)) (key : κ) (length : Nat) : Prop :=
  Hops [root] (nextOf links) length key ∧ ∀ other, Hops [root] (nextOf links) other key → length ≤ other

theorem Shortest.congr (same : ∀ link, link ∈ links ↔ link ∈ others) {length : Nat}
    (shortest : Shortest root links key length) : Shortest root others key length := by
  have carry {links others : List (κ × κ)} (same : ∀ link, link ∈ links ↔ link ∈ others) {key : κ} {length : Nat}
    (path : Hops [root] (nextOf links) length key) : Hops [root] (nextOf others) length key := by
    induction path with
    | seed member => exact .seed member
    | hop _ link ih => exact .hop ih (mem_nextOf.mpr ((same _).mp (mem_nextOf.mp link)))
  exact ⟨carry same shortest.1,fun other path => shortest.2 other (carry (fun link => (same link).symm) path)⟩

section
variable (kept : Kept meetings limit root [] walk) (done : walk.queue = [])
include kept

omit [DecidableEq κ] in
theorem Kept.root_zero (taken : (root,depth) ∈ walk.taken) : depth = 0 := by
  rcases kept.entries _ (.inr (.inr taken)) with seed | ⟨_,_,meeting,_,shape,_,_,unseeded⟩
  · exact (mk.inj seed).2
  · exact absurd (mk.inj shape).1.symm unseeded

theorem Kept.hops (behind : Behind meetings) (before : from_ ∈ walk.taken)
    (path : Hops [root] (nextOf walk.links) from_.2 from_.1) (inside : meeting ∈ meetings from_.1) :
    Hops [root] (nextOf walk.links) (from_.2 + meeting.steps) meeting.target := by
  have link (met : Meeting κ) (inside : met ∈ meetings from_.1) : met.target ∈ nextOf walk.links met.source :=
    mem_nextOf.mpr ((kept.links _).mpr ⟨from_,before,met,inside,rfl⟩)
  unfold Meeting.steps
  cases far : meeting.far with
  | false =>
    have last := link meeting inside
    rw [behind.near _ meeting inside far] at last
    exact path.hop last
  | true =>
    obtain ⟨near,inNear,one,target⟩ := behind.between _ meeting inside far
    have first := link near inNear
    rw [behind.near _ near inNear one,target] at first
    exact (path.hop first).hop (link meeting inside)

theorem Kept.path_taken (behind : Behind meetings) (taken : entry ∈ walk.taken) :
    Hops [root] (nextOf walk.links) entry.2 entry.1 := by
  obtain ⟨key,depth⟩ := entry
  induction depth using Nat.strongRecOn generalizing key with
  | ind depth ih =>
    rcases kept.entries _ (.inr (.inr taken)) with seed | ⟨from_,before,meeting,inside,shape,_⟩
    · obtain ⟨rfl,rfl⟩ := mk.inj seed
      exact .seed (mem_singleton_self _)
    · obtain ⟨rfl,rfl⟩ := mk.inj shape
      have earlier := Nat.lt_add_of_pos_right (n:=from_.2) (steps_pos meeting)
      exact kept.hops behind before (ih from_.2 earlier from_.1 before) inside

-- A depth shown is the length of a path: whatever gave it gave no smaller one.
theorem Kept.path_depth (behind : Behind meetings) (found : walk.depth key = some value) :
    Hops [root] (nextOf walk.links) value key := by
  have exactly (other : Nat) (below : Below walk.depth key other) : value ≤ other := by
    obtain ⟨least,small,held⟩ := below
    rw [found] at held
    cases held
    exact small
  obtain ⟨entry,taken,⟨same,small⟩ | ⟨meeting,inside,same,small⟩⟩ :=
    (kept.below key value).mp ⟨value,Nat.le_refl _,found⟩
  · have least := exactly entry.2 ((kept.below key entry.2).mpr ⟨entry,taken,.inl ⟨same,Nat.le_refl _⟩⟩)
    rw [Nat.le_antisymm least small,← same]
    exact kept.path_taken behind taken
  · have least := exactly (entry.2 + meeting.steps)
      ((kept.below key _).mpr ⟨entry,taken,.inr ⟨meeting,inside,same,Nat.le_refl _⟩⟩)
    rw [Nat.le_antisymm least small,← same]
    exact kept.hops behind taken (kept.path_taken behind taken) inside

include done

omit [DecidableEq κ] in
theorem Kept.root_taken : (root,0) ∈ walk.taken := by
  obtain ⟨depth,taken⟩ := kept.queued_done done kept.seeded
  exact kept.root_zero taken ▸ taken

theorem Kept.depth_le (relaxed : Relaxed walk) {length : Nat} (path : Hops [root] (nextOf walk.links) length key) :
    Below walk.depth key length := by
  induction path with
  | seed member =>
    rw [mem_singleton.mp member]
    exact (kept.below root 0).mpr ⟨_,kept.root_taken done,.inl ⟨rfl,Nat.le_refl _⟩⟩
  | hop path link ih => exact relaxed _ (mem_nextOf.mp link) _ ih

theorem Kept.relaxed_iff (behind : Behind meetings) :
    Relaxed walk ↔ ∀ key value, walk.depth key = some value → Shortest root walk.links key value := by
  constructor
  · intro relaxed key value found
    refine ⟨kept.path_depth behind found,fun other path => ?_⟩
    obtain ⟨least,small,held⟩ := kept.depth_le done relaxed path
    rw [found] at held
    cases held
    exact small
  · intro shortest link member bound below
    obtain ⟨value,small,found⟩ := below
    obtain ⟨from_,taken,meeting,inside,rfl⟩ := (kept.links link).mp member
    obtain ⟨shown,_,held⟩ := (kept.below meeting.target _).mpr
      ⟨from_,taken,.inr ⟨meeting,inside,rfl,Nat.le_refl _⟩⟩
    have near := (shortest _ _ held).2 _ ((shortest _ _ found).1.hop (mem_nextOf.mpr member))
    exact ⟨shown,Nat.le_trans near (Nat.succ_le_succ small),held⟩

omit [DecidableEq κ] in
theorem Kept.taken_iff {enters : κ → Bool}
    (flag : ∀ other, Reached meetings root other → ∀ meeting ∈ meetings other, meeting.enters = enters meeting.target)
    (notRoot : key ≠ root) :
    (∃ depth, (key,depth) ∈ walk.taken) ↔ enters key = true ∧ Below walk.depth key limit := by
  constructor
  · rintro ⟨depth,taken⟩
    have small := kept.within (.inr (.inr taken))
    refine ⟨?_,(kept.below key limit).mpr ⟨_,taken,.inl ⟨rfl,small⟩⟩⟩
    rcases kept.entries _ (.inr (.inr taken)) with seed | ⟨from_,before,meeting,inside,shape,enter,_⟩
    · exact absurd (mk.inj seed).1 notRoot
    · rw [(mk.inj shape).1,← flag _ (kept.reached (.inr (.inr before))) meeting inside]
      exact enter
  · rintro ⟨enter,below⟩
    obtain ⟨⟨other,depth⟩,taken,⟨rfl,_⟩ | ⟨meeting,inside,rfl,small⟩⟩ := (kept.below key limit).mp below
    · exact ⟨depth,taken⟩
    · have enter := (flag _ (kept.reached (.inr (.inr taken))) meeting inside).trans enter
      exact kept.queued_done done (kept.entered _ taken meeting inside enter small)

end

end
end Psat.General.Levels
