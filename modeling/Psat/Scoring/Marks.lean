import Psat.General.Reach
import Psat.Scoring.Queue

namespace Psat.Scoring.Marks
open Psat.General List
open Function (update update_of_ne update_self)

-- A producer's open transaction, its marks stamped with its start.
structure Producer where
  started : Instant
  written : List (ProtocolId × String) := []

-- One session of the score loop. `readAt` counts the steps of the run.
inductive Session
  | idle
  | selected (due : List DueProtocol)
  | folding (readAt : Nat) (item : DueProtocol) (rest : List DueProtocol)
  | failed (item : DueProtocol) (rest : List DueProtocol)

def Session.items : Session → List DueProtocol
  | .idle => []
  | .selected due => due
  | .folding _ item rest => item :: rest
  | .failed item rest => item :: rest

structure Mark where
  protocolId : ProtocolId
  committedAt : Nat

structure World where
  now : Nat := 0
  queue : Queue := []
  protocols : List ProtocolId := []
  computedAt : ProtocolId → Option Instant := fun _ => none
  starts : List Instant := []
  producers : List Producer := []
  sessions : Nat → Session := fun _ => .idle
  marks : List Mark := []

inductive Event
  | start (started : Instant)
  | mark (started : Instant) (id : ProtocolId) (reason : String)
  | commit (started : Instant)
  | rollback (started : Instant)
  | select (session : Nat) (settings : Settings) (clock started : Instant)
  | read (session : Nat)
  | succeed (session : Nat) (computedAt : Instant)
  | fail (session : Nat)
  | record (session : Nat) (started clock : Instant)
  | lose (session : Nat)
  | abandon (session : Nat)

def commitMarks (producer : Producer) (queue : Queue) : Queue :=
  producer.written.foldl (fun queue entry => markProtocolScoreDirty producer.started entry.1 entry.2 queue) queue

def Producer.write (producer : Producer) (started : Instant) (id : ProtocolId) (reason : String) : Producer :=
  if producer.started = started then {producer with written:=producer.written ++ [(id,reason)]} else producer

namespace World

def set (world : World) (session : Nat) (phase : Session) : World :=
  {world with sessions:=update world.sessions session phase}

-- A transaction holds its rows until it ends, so it acts at its commit.
def act (world : World) : Event → World
  | .start started => {world with starts:=started :: world.starts,producers:={started} :: world.producers}
  | .mark started id reason => {world with producers:=world.producers.map (·.write started id reason)}
  | .commit started =>
    match world.producers.find? (·.started = started) with
    | none => world
    | some producer =>
      { world with
        queue:=commitMarks producer world.queue
        producers:=world.producers.filter (·.started ≠ started)
        marks:=producer.written.map (fun entry => ⟨entry.1,world.now⟩) ++ world.marks }
  | .rollback started => {world with producers:=world.producers.filter (·.started ≠ started)}
  | .select session settings clock started =>
    match world.sessions session with
    | .idle =>
      world.set session
        (.selected (selectDueProtocols settings world.queue world.protocols world.computedAt clock started))
    | _ => world
  | .read session =>
    match world.sessions session with
    | .selected (item :: rest) => world.set session (.folding world.now item rest)
    | _ => world
  | .succeed session computedAt =>
    match world.sessions session with
    | .folding _ item rest =>
      { world.set session (.selected rest) with
        queue:=settleFold item world.queue
        computedAt:=update world.computedAt item.protocolId (some computedAt) }
    | _ => world
  | .fail session =>
    match world.sessions session with
    | .folding _ item rest => world.set session (.failed item rest)
    | _ => world
  | .record session started clock =>
    match world.sessions session with
    | .failed item rest =>
      { world.set session (.selected rest) with
        queue:=recordFailure started clock item world.queue
        starts:=started :: world.starts }
    | _ => world
  | .lose session =>
    match world.sessions session with
    | .failed _ rest => world.set session (.selected rest)
    | _ => world
  | .abandon session => world.set session .idle

-- No two transactions start at the same instant.
def enabled (world : World) : Event → Prop
  | .start started => started ∉ world.starts
  | .record _ started _ => started ∉ world.starts
  | _ => True

def after (world : World) (event : Event) : World := {world.act event with now:=world.now + 1}

def Step (before later : World) : Prop := ∃ event, before.enabled event ∧ before.after event = later

structure Initial (world : World) : Prop where
  keyed : Keyed world.queue
  past : ∀ id stamp, token world.queue id = some stamp → stamp ∈ world.starts
  unmarked : world.marks = []
  quiet : world.producers = []
  idle : ∀ session, world.sessions session = .idle

abbrev Reached : World → Prop := Reachable Initial Step

end World

-- A stamp no later transaction can write: it is taken, and its own is over.
def Spent (world : World) (stamp : Instant) : Prop :=
  stamp ∈ world.starts ∧ ∀ producer ∈ world.producers, producer.started ≠ stamp

structure Sane (world : World) : Prop where
  keyed : Keyed world.queue
  opened : ∀ producer ∈ world.producers, producer.started ∈ world.starts

structure Moved (before later : World) : Prop where
  clock : later.now = before.now + 1
  sane : Sane later
  spent : ∀ stamp, Spent before stamp → Spent later stamp
  written : ∀ id stamp, token later.queue id = some stamp → token before.queue id = some stamp ∨
    Spent later stamp ∧ ¬ Spent before stamp
  marked : ∀ mark ∈ later.marks, mark ∈ before.marks ∨ mark.committedAt = before.now ∧
    ∃ stamp, token later.queue mark.protocolId = some stamp ∧ ¬ Spent before stamp
  held : ∀ session, ∀ item ∈ (later.sessions session).items, item ∈ (before.sessions session).items ∨
    ∀ stamp, item.dirtyAt = some stamp → token before.queue item.protocolId = some stamp
  reading : ∀ session readAt item rest, later.sessions session = .folding readAt item rest →
    before.sessions session = .folding readAt item rest ∨ readAt = before.now

theorem commitMarks_token (queue : Queue) (id : ProtocolId) :
    token (commitMarks producer queue) id = if id ∈ producer.written.map Prod.fst then some producer.started
    else token queue id := by
  unfold commitMarks
  induction producer.written generalizing queue with
  | nil => simp
  | cons first rest ih =>
    rw [foldl_cons,ih,mark_token,map_cons]
    by_cases later : id ∈ rest.map Prod.fst
    · simp [later]
    · by_cases here : id = first.1
      · simp [here]
      · simp [later,here]

theorem commitMarks_keyed (producer : Producer) (keyed : Keyed queue) : Keyed (commitMarks producer queue) := by
  unfold commitMarks
  induction producer.written generalizing queue with
  | nil => exact keyed
  | cons first rest ih => exact ih (mark_keyed _ _ _ keyed)

theorem Moved.none (sane : Sane before) : Moved before {before with now:=before.now + 1} where
  clock := rfl
  sane := ⟨sane.keyed,sane.opened⟩
  spent _ := id
  written _ _ := .inl
  marked _ := .inl
  held _ _ := .inl
  reading _ _ _ _ := .inl

section
variable (sane : Sane before) {phase : Session} {slot : Nat} (items : phase.items ⊆ (before.sessions slot).items)
    (reading : ∀ readAt item rest, phase = .folding readAt item rest → readAt = before.now)
include sane items reading

theorem Moved.session (keyed : Keyed queue) (grown : before.starts ⊆ starts)
    (written : ∀ id stamp, token queue id = some stamp → token before.queue id = some stamp ∨
      stamp ∈ starts ∧ stamp ∉ before.starts) :
    Moved before {before.set slot phase with queue,starts,computedAt,now:=before.now + 1} where
  clock := rfl
  sane := ⟨keyed,fun producer member => grown (sane.opened producer member)⟩
  spent _ spent := ⟨grown spent.1,spent.2⟩
  written := by
    intro id stamp present
    rcases written id stamp present with old | ⟨taken,new⟩
    · exact .inl old
    · refine .inr ⟨⟨taken,?_⟩,fun spent => new spent.1⟩
      intro producer member same
      exact new (same ▸ sane.opened producer member)
  marked _ := .inl
  held := by
    intro other item inside
    by_cases same : other = slot
    · subst same
      simp only [World.set,update_self] at inside
      exact .inl (items inside)
    · simp only [World.set,update_of_ne same] at inside
      exact .inl inside
  reading := by
    intro other readAt item rest phase
    by_cases same : other = slot
    · subst same
      simp only [World.set,update_self] at phase
      exact .inr (reading readAt item rest phase)
    · simp only [World.set,update_of_ne same] at phase
      exact .inl phase

theorem Moved.turned : Moved before {before.set slot phase with now:=before.now + 1} :=
  .session sane items reading sane.keyed (List.Subset.refl _) fun _ _ => .inl

end

theorem moved_start (sane : Sane before) (fresh : started ∉ before.starts) : Moved before
    (before.after (.start started)) where
  clock := rfl
  sane := by
    refine ⟨sane.keyed,?_⟩
    intro producer member
    cases member with
    | head => exact mem_cons_self
    | tail _ older => exact mem_cons_of_mem _ (sane.opened producer older)
  spent := by
    intro stamp spent
    refine ⟨mem_cons_of_mem _ spent.1,?_⟩
    intro producer member
    cases member with
    | head =>
      rintro rfl
      exact fresh spent.1
    | tail _ older => exact spent.2 producer older
  written _ _ := .inl
  marked _ := .inl
  held _ _ := .inl
  reading _ _ _ _ := .inl

theorem write_started (producer : Producer) (started : Instant) (id : ProtocolId) (reason : String) :
    (producer.write started id reason).started = producer.started := by
  unfold Producer.write
  split <;> rfl

section
variable (sane : Sane before)
include sane

theorem moved_mark (started : Instant) (protocol : ProtocolId) (reason : String) :
    Moved before (before.after (.mark started protocol reason)) where
  clock := rfl
  sane := by
    refine ⟨sane.keyed,?_⟩
    intro producer member
    obtain ⟨older,inside,rfl⟩ := mem_map.mp member
    rw [write_started]
    exact sane.opened older inside
  spent := by
    intro stamp spent
    refine ⟨spent.1,?_⟩
    intro producer member
    obtain ⟨older,inside,rfl⟩ := mem_map.mp member
    rw [write_started]
    exact spent.2 older inside
  written _ _ := .inl
  marked _ := .inl
  held _ _ := .inl
  reading _ _ _ _ := .inl

theorem moved_rollback (started : Instant) : Moved before (before.after (.rollback started)) where
  clock := rfl
  sane := ⟨sane.keyed,fun producer member => sane.opened producer (mem_of_mem_filter member)⟩
  spent _ spent := ⟨spent.1,fun producer member => spent.2 producer (mem_of_mem_filter member)⟩
  written _ _ := .inl
  marked _ := .inl
  held _ _ := .inl
  reading _ _ _ _ := .inl

theorem moved_commit (started : Instant) : Moved before (before.after (.commit started)) := by
  cases found : before.producers.find? (·.started = started) with
  | none =>
    simp only [World.after,World.act,found]
    exact .none sane
  | some producer =>
    have member := mem_of_find?_eq_some found
    have same : producer.started = started := by simpa using find?_some found
    have open_ : ¬ Spent before producer.started := fun spent => spent.2 producer member rfl
    simp only [World.after,World.act,found]
    constructor
    · rfl
    · exact ⟨commitMarks_keyed producer sane.keyed,fun other inside => sane.opened other (mem_of_mem_filter inside)⟩
    · intro stamp spent
      exact ⟨spent.1,fun other inside => spent.2 other (mem_of_mem_filter inside)⟩
    · intro id stamp present
      rw [commitMarks_token] at present
      split at present
      · cases present
        refine .inr ⟨⟨sane.opened producer member,?_⟩,open_⟩
        rw [same]
        simp
      · exact .inl present
    · intro mark inside
      rcases mem_append.mp inside with new | old
      · obtain ⟨entry,listed,rfl⟩ := mem_map.mp new
        refine .inr ⟨rfl,producer.started,?_,open_⟩
        rw [commitMarks_token,if_pos (mem_map_of_mem listed)]
      · exact .inl old
    · exact fun _ _ => .inl
    · exact fun _ _ _ _ => .inl

theorem moved_select (session : Nat) (settings : Settings) (clock started : Instant) :
    Moved before (before.after (.select session settings clock started)) := by
  simp only [World.after,World.act]
  split
  · constructor
    · rfl
    · exact ⟨sane.keyed,sane.opened⟩
    · exact fun _ => id
    · exact fun _ _ => .inl
    · exact fun _ => .inl
    · intro other item inside
      by_cases same : other = session
      · subst same
        simp only [World.set,update_self] at inside
        exact .inr fun stamp => selected_token sane.keyed inside
      · simp only [World.set,update_of_ne same] at inside
        exact .inl inside
    · intro other readAt item rest phase
      by_cases same : other = session
      · subst same
        simp only [World.set,update_self] at phase
        cases phase
      · simp only [World.set,update_of_ne same] at phase
        exact .inl phase
  · exact .none sane

theorem moved_succeed (session : Nat) (computedAt : Instant) :
    Moved before (before.after (.succeed session computedAt)) := by
  simp only [World.after,World.act]
  split
  · rename_i item rest phase
    refine .session sane (phase ▸ subset_cons_self _ _) (fun _ _ _ folding => by cases folding)
      (settle_keyed sane.keyed item)
      (List.Subset.refl _) ?_
    intro id stamp present
    rcases settle_token sane.keyed item id with kept | ⟨gone,_⟩
    · exact .inl (kept ▸ present)
    · rw [gone] at present
      cases present
  · exact .none sane

theorem moved_record (session : Nat) (clock : Instant) (fresh : started ∉ before.starts) :
    Moved before (before.after (.record session started clock)) := by
  simp only [World.after,World.act]
  split
  · rename_i item rest phase
    refine .session sane (phase ▸ subset_cons_self _ _) (fun _ _ _ folding => by cases folding)
      (record_keyed _ _ item sane.keyed)
      (subset_cons_self _ _) ?_
    intro id stamp present
    rw [record_token] at present
    split at present
    · cases held : token before.queue id with
      | none =>
        rw [held] at present
        cases present
        exact .inr ⟨mem_cons_self,fresh⟩
      | some old =>
        rw [held] at present
        exact .inl present
    · exact .inl present
  · exact .none sane

theorem World.moved (step : World.Step before later) : Moved before later := by
  obtain ⟨event,enabled,rfl⟩ := step
  cases event with
  | start started => exact moved_start sane enabled
  | mark started id reason => exact moved_mark sane started id reason
  | commit started => exact moved_commit sane started
  | rollback started => exact moved_rollback sane started
  | select session settings clock started => exact moved_select sane session settings clock started
  | read session =>
    simp only [World.after,World.act]
    split
    · rename_i phase
      exact .turned sane (phase ▸ List.Subset.refl _) fun _ _ _ folding => by cases folding; rfl
    · exact .none sane
  | succeed session computedAt => exact moved_succeed sane session computedAt
  | fail session =>
    simp only [World.after,World.act]
    split
    · rename_i phase
      exact .turned sane (phase ▸ List.Subset.refl _) fun _ _ _ folding => by cases folding
    · exact .none sane
  | record session started clock => exact moved_record sane session clock enabled
  | lose session =>
    simp only [World.after,World.act]
    split
    · rename_i phase
      exact .turned sane (phase ▸ subset_cons_self _ _) fun _ _ _ folding => by cases folding
    · exact .none sane
  | abandon session => exact .turned sane (nil_subset _) fun _ _ _ folding => by cases folding

end

-- A fold whose token still stands began to read after every mark of its protocol.
structure Fenced (world : World) : Prop where
  sane : Sane world
  past : ∀ mark ∈ world.marks, mark.committedAt < world.now
  queued : ∀ id stamp, token world.queue id = some stamp → Spent world stamp
  captured : ∀ session, ∀ item ∈ (world.sessions session).items, ∀ stamp, item.dirtyAt = some stamp → Spent world stamp
  read : ∀ session readAt item rest stamp, world.sessions session = .folding readAt item rest →
    item.dirtyAt = some stamp →
    token world.queue item.protocolId = some stamp → ∀ mark ∈ world.marks, mark.protocolId = item.protocolId →
      mark.committedAt < readAt

theorem Fenced.initial (world : World) (initial : World.Initial world) : Fenced world where
  sane := ⟨initial.keyed,by simp [initial.quiet]⟩
  past := by simp [initial.unmarked]
  queued id stamp present := ⟨initial.past id stamp present,by simp [initial.quiet]⟩
  captured session item inside := by
    rw [initial.idle session] at inside
    cases inside
  read := by simp [initial.unmarked]

theorem Fenced.step (before later : World) (fenced : Fenced before) (step : World.Step before later) :
    Fenced later := by
  have moved := World.moved fenced.sane step
  have captured : ∀ session, ∀ item ∈ (later.sessions session).items, ∀ stamp, item.dirtyAt = some stamp →
    Spent before stamp := by
    intro session item inside stamp named
    rcases moved.held session item inside with old | selected
    · exact fenced.captured session item old stamp named
    · exact fenced.queued _ stamp (selected stamp named)
  constructor
  · exact moved.sane
  · intro mark member
    rw [moved.clock]
    rcases moved.marked mark member with old | ⟨now,_⟩
    · exact Nat.lt_succ_of_lt (fenced.past mark old)
    · exact now ▸ Nat.lt_succ_self _
  · intro id stamp present
    rcases moved.written id stamp present with old | ⟨spent,_⟩
    · exact moved.spent stamp (fenced.queued id stamp old)
    · exact spent
  · intro session item inside stamp named
    exact moved.spent stamp (captured session item inside stamp named)
  · -- A mark that commits now would have put a stamp that is not spent.
    intro session readAt item rest stamp phase named present mark member same
    have spent : Spent before stamp := captured session item (by rw [phase]; exact mem_cons_self) stamp named
    have old : mark ∈ before.marks := by
      rcases moved.marked mark member with old | ⟨_,other,written,open_⟩
      · exact old
      · rw [same,present] at written
        cases written
        exact absurd spent open_
    have stood : token before.queue item.protocolId = some stamp := by
      rcases moved.written _ stamp present with stood | ⟨_,open_⟩
      · exact stood
      · exact absurd spent open_
    rcases moved.reading session readAt item rest phase with reading | now
    · exact fenced.read session readAt item rest stamp reading named stood mark old same
    · exact now ▸ fenced.past mark old

theorem removed_by_fold {before : World} {id : ProtocolId} (keyed : Keyed before.queue)
    (present : token before.queue id ≠ none) (gone : token (before.after event).queue id = none) :
    ∃ session readAt item rest computedAt, event = .succeed session computedAt ∧
    before.sessions session = .folding readAt item rest ∧
      item.protocolId = id ∧ item.dirtyAt = token before.queue id := by
  cases event with
  | start | mark | rollback | abandon => exact absurd gone present
  | commit started =>
    simp only [World.after,World.act] at gone
    split at gone
    · exact absurd gone present
    · dsimp only at gone
      rw [commitMarks_token] at gone
      split at gone
      · cases gone
      · exact absurd gone present
  | record session started clock =>
    simp only [World.after,World.act] at gone
    split at gone
    · dsimp only at gone
      rw [record_token] at gone
      split at gone
      · cases gone
      · exact absurd gone present
    · exact absurd gone present
  | succeed session computedAt =>
    simp only [World.after,World.act] at gone
    split at gone
    · rename_i readAt item rest phase
      rcases settle_token keyed item id with kept | ⟨_,same,under⟩
      · exact absurd (kept ▸ gone) present
      · exact ⟨session,readAt,item,rest,computedAt,rfl,phase,same.symm,under⟩
    · exact absurd gone present
  | _ =>
    simp only [World.after,World.act] at gone
    split at gone <;> exact absurd gone present

-- A queued mark leaves only with a fold that began to read after its commit.
theorem mark_removed_by_later_fold {before : World} {event : Event} {mark : Mark} (reached : World.Reached before)
    (committed : mark ∈ before.marks) (queued : token before.queue mark.protocolId ≠ none)
    (gone : token (before.after event).queue mark.protocolId = none) :
    ∃ session readAt item rest computedAt, event = .succeed session computedAt ∧
    before.sessions session = .folding readAt item rest ∧
      item.protocolId = mark.protocolId ∧ mark.committedAt < readAt := by
  have fenced := Reachable.invariant Fenced.initial Fenced.step reached
  obtain ⟨session,readAt,item,rest,computedAt,happened,phase,same,under⟩ :=
    removed_by_fold fenced.sane.keyed queued gone
  obtain ⟨stamp,present⟩ := Option.ne_none_iff_exists'.mp queued
  rw [present] at under
  refine ⟨session,readAt,item,rest,computedAt,happened,phase,same,?_⟩
  exact fenced.read session readAt item rest stamp phase under (by rw [same,present]) mark committed same.symm

def manualRun : List Event := [.start 5,.mark 5 1 "manual",.commit 5,.select 0 {} 9 9,.read 0]

def manualWorld : World := manualRun.foldl .after {}

theorem World.Reached.after (reached : World.Reached world) (event : Event) (enabled : world.enabled event) :
    World.Reached (world.after event) :=
  .next reached ⟨event,enabled,rfl⟩

theorem manual_reached : World.Reached manualWorld := by
  have first : World.Reached {} := .start ⟨nodup_nil,by simp [token],rfl,rfl,fun _ => rfl⟩
  have started := first.after (.start 5) not_mem_nil
  have marked := started.after (.mark 5 1 "manual") trivial
  have committed := marked.after (.commit 5) trivial
  have selected := committed.after (.select 0 {} 9 9) trivial
  exact selected.after (.read 0) trivial

theorem manual_mark_removed : ∃ session readAt item rest computedAt, Event.succeed 0 12 = .succeed session computedAt ∧
    manualWorld.sessions session = .folding readAt item rest ∧ item.protocolId = 1 ∧ 2 < readAt :=
  @mark_removed_by_later_fold manualWorld (.succeed 0 12) ⟨1,2⟩ manual_reached (mem_singleton.mpr rfl)
    (by decide) (by decide)

end Psat.Scoring.Marks
