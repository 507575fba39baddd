import Psat.Materialize.Ready

namespace Psat.Materialize
open Psat.General Runs

section Conditions
variable (config : Config) (world : World)

-- A publication has begun to upload over the key's objects.
def World.refreshing (key : Key) : Bool := world.publishers.any fun entry =>
  entry.2.publication.key = key ∧ entry.2.left ≠ uploads config entry.2.publication.bundle

-- An upload that has put the object already put the same content.
def sharing (blob : BlobKey) (content : Option Payload) (key : Key) (bundle : Bundle) (left : List Kind) : Bool :=
  key = blob.key → blob.kind ∈ left ∨ bundle.payload blob.kind = none ∨ bundle.payload blob.kind = content

-- No ready row, except one that is about to be rewritten, and no call in
-- progress has other content in the object.
def agrees (blob : BlobKey) (content : Option Payload) (rewritten : Option Key) : Bool :=
  (world.rows.all fun entry => entry.2.isReady config ∧ entry.2.blobKey blob.kind = some blob →
    some entry.1 = rewritten ∨ world.blobs.lookup blob = content) ∧
  (world.callers.all fun entry => match entry.2.phase with
    | .uploading bundle left => sharing blob content entry.2.call.key bundle left
    | _ => true) ∧
  world.publishers.all fun entry =>
    sharing blob content entry.2.publication.key entry.2.publication.bundle entry.2.left

-- Uploads change no object under a ready row or another call; only a
-- publication may, under the row of its own key, and it then writes that row;
-- no row is copied in between.
def undisturbed : Event → Bool
  | .put id => (world.callers.lookup id).all fun caller => match caller.phase with
    | .uploading bundle (kind :: _) => agrees config world ⟨caller.call.key,kind⟩ (bundle.payload kind) none
    | _ => true
  | .putPublished id => (world.publishers.lookup id).all fun publisher => publisher.left.head?.all fun kind =>
    agrees config world ⟨publisher.publication.key,kind⟩ (publisher.publication.bundle.payload kind)
      (some publisher.publication.key)
  | .poll _ donor => donor.all fun origin => world.ready config origin → world.refreshing config origin = false
  | event => (abandons world event).all fun id => (world.publishers.lookup id).all fun publisher =>
    world.ready config publisher.publication.key → publisher.left = uploads config publisher.publication.bundle

def Unbegun (key : Key) : Prop :=
  ∀ id publisher, world.publishers.lookup id = some publisher → publisher.publication.key = key →
    publisher.left = uploads config publisher.publication.bundle

def Stored (key : Key) (bundle : Bundle) (kind : Kind) : Prop :=
  (bundle.payload kind).isSome → world.blobs.lookup ⟨key,kind⟩ = bundle.payload kind

-- A ready row names the objects of one key, which hold the bundle it was
-- written from.
def Intact (key : Key) (row : Row) : Prop :=
  ∃ bundle origin, world.builds.lookup key = some bundle ∧ ∀ kind, row.inline kind = none ∧
    row.blobKey kind = (bundle.payload kind).map (fun _ => ⟨origin,kind⟩) ∧ Stored world origin bundle kind

-- The objects that an upload has put so far are those of its bundle.
def Uploaded (key : Key) (bundle : Bundle) (left : List Kind) : Prop :=
  left <:+ uploads config bundle ∧ ∀ kind, kind ∉ left → Stored world key bundle kind

-- Ready rows that are not being rewritten are intact.
structure Whole (rewritten : Option Key) : Prop where
  rows : ∀ key row, world.row key = some row → row.isReady config = true → some key ≠ rewritten →
    Unbegun config world key → Intact world key row
  callers : ∀ id caller bundle left, world.callers.lookup id = some caller → caller.phase = .uploading bundle left →
    Uploaded config world caller.call.key bundle left
  publishers : ∀ id publisher, world.publishers.lookup id = some publisher →
    Uploaded config world publisher.publication.key publisher.publication.bundle publisher.left

end Conditions

section Steps
variable {world next : World}

theorem Intact.hydrates (intact : Intact world key row) (storage : config.storage = true) :
    ∃ bundle, world.builds.lookup key = some bundle ∧ ∀ kind, hydrate config world row kind = bundle.payload kind := by
  obtain ⟨bundle,origin,built,parts⟩ := intact
  refine ⟨bundle,built,fun kind => ?_⟩
  obtain ⟨inline,named,stored⟩ := parts kind
  rw [hydrate,named,inline]
  cases held : bundle.payload kind with
  | none => rfl
  | some content =>
    have there : world.blobs.lookup ⟨origin,kind⟩ = some content := by
      rw [← held]
      exact stored (by rw [held]; rfl)
    simp [storage,there]

theorem unbegun_of_not_refreshing (still : world.refreshing config key = false) : Unbegun config world key := by
  intro id publisher found same
  have entry := List.any_eq_false.mp still _ (Dict.mem_of_lookup found)
  simpa [same] using entry

theorem lookup_blobs_put (key : Key) (bundle : Bundle) (kind : Kind) (blob : BlobKey) :
    (put world key bundle kind).blobs.lookup blob = if blob = ⟨key,kind⟩ then
      (bundle.payload kind).or (world.blobs.lookup blob) else world.blobs.lookup blob := by
  rw [put]
  cases bundle.payload kind with
  | none => simp
  | some content => exact Dict.lookup_put ⟨key,kind⟩ blob content world.blobs

theorem Stored.put (stored : Stored world other found part)
    (same : other = key → part = kind → (found.payload part).isSome → found.payload part = bundle.payload kind) :
    Stored (put world key bundle kind) other found part := by
  intro present
  rw [lookup_blobs_put]
  split
  · rename_i equal
    obtain ⟨rfl,rfl⟩ := BlobKey.mk.inj equal
    rw [← same rfl rfl present,Option.or_of_isSome present]
  · exact stored present

theorem Uploaded.put (uploaded : Uploaded config world other found left)
    (shared : sharing ⟨key,kind⟩ (bundle.payload kind) other found left = true) :
    Uploaded config (put world key bundle kind) other found left := by
  refine ⟨uploaded.1,fun part done => (uploaded.2 part done).put ?_⟩
  rintro rfl rfl present
  simp only [sharing,decide_eq_true_eq] at shared
  rcases shared trivial with listed | absent | same
  · exact absurd listed done
  · rw [absent] at present
    cases present
  · exact same

theorem Uploaded.advance
    (uploaded : Uploaded config (Materialize.put world key bundle kind) key bundle (kind :: left)) :
    Uploaded config (Materialize.put world key bundle kind) key bundle left := by
  refine ⟨(List.suffix_cons kind left).trans uploaded.1,fun part done present => ?_⟩
  by_cases same : part = kind
  · subst same
    rw [lookup_blobs_put,if_pos rfl,Option.or_of_isSome present]
  · exact uploaded.2 part (by simp [same,done]) present

theorem uploaded_start (storage : config.storage = true) (key : Key) (bundle : Bundle) :
    Uploaded config world key bundle (uploads config bundle) := by
  refine ⟨List.suffix_refl _,fun kind absent present => ?_⟩
  rw [uploads,if_pos storage] at absent
  have listed : kind ∈ kinds := by cases kind <;> decide
  exact absurd (List.mem_filter.mpr (And.intro listed present)) absent

theorem lookup_builds_write (key other : Key) (row : Row) (build : Option Bundle) :
    (world.write key row build).builds.lookup other = if other = key then build.or (world.builds.lookup other)
      else world.builds.lookup other := by
  cases build with
  | none => simp [World.write]
  | some bundle => exact Dict.lookup_put key other bundle world.builds

theorem lookup_builds_write_self (key : Key) (row : Row) (bundle : Bundle) :
    (world.write key row (some bundle)).builds.lookup key = some bundle := by
  simp [lookup_builds_write]

theorem Uploaded.intact (storage : config.storage = true) (uploaded : Uploaded config world key bundle [])
    (written : row = readyRow config key address sourceHash bundle existing) :
    Intact (world.write key row (some bundle)) key row := by
  refine ⟨bundle,key,lookup_builds_write_self key row bundle,fun kind =>
    ⟨?_,?_,uploaded.2 kind List.not_mem_nil⟩⟩
  · simp [written,readyRow,storage]
  · simp only [written,readyRow,storage]
    cases held : bundle.payload kind <;> simp

theorem Whole.put (whole : Whole config world none)
    (agreed : agrees config world ⟨key,kind⟩ (bundle.payload kind) rewritten = true) :
    Whole config (put world key bundle kind) rewritten := by
  simp only [agrees,decide_eq_true_eq,List.all_eq_true] at agreed
  obtain ⟨rows,callers,publishers⟩ := agreed
  constructor
  · intro other row held ready spared unbegun
    obtain ⟨found,origin,built,parts⟩ := whole.rows other row held ready (Option.some_ne_none _) unbegun
    refine ⟨found,origin,built,fun part => ⟨(parts part).1,(parts part).2.1,(parts part).2.2.put ?_⟩⟩
    rintro rfl rfl present
    obtain ⟨content,payload⟩ := Option.isSome_iff_exists.mp present
    have named := (parts part).2.1
    rw [payload] at named
    rcases rows _ (Dict.mem_of_lookup held) ⟨ready,named⟩ with same | same
    · exact absurd same spared
    · exact ((parts part).2.2 present).symm.trans same
  · intro id caller found left held phase
    have shared := callers _ (Dict.mem_of_lookup held)
    rw [phase] at shared
    exact (whole.callers id caller found left held phase).put shared
  · intro id publisher held
    exact (whole.publishers id publisher held).put (publishers _ (Dict.mem_of_lookup held))

theorem Whole.spare (whole : Whole config world none) (key : Key) : Whole config world (some key) :=
  ⟨fun other row held ready _ => whole.rows other row held ready (Option.some_ne_none _),whole.callers,whole.publishers⟩

theorem Whole.wrote (whole : Whole config world (some key))
    (intact : row.isReady config = true → Intact (world.write key row build) key row) :
    Whole config (world.write key row build) none where
  rows := fun other found held ready _ unbegun => by
    rw [write_row] at held
    split at held
    · rename_i same
      subst same
      cases held
      exact intact ready
    · rename_i differs
      obtain ⟨bundle,origin,built,parts⟩ := whole.rows other found held ready (by simpa using differs) unbegun
      exact ⟨bundle,origin,by rw [lookup_builds_write,if_neg differs,built],parts⟩
  callers := whole.callers
  publishers := whole.publishers

theorem Whole.unready (whole : Whole config world none) (unready : row.isReady config = false) :
    Whole config (world.write key row build) none :=
  (whole.spare key).wrote fun ready => by cases unready.symm.trans ready

theorem Whole.setPhase (whole : Whole config world none) (id : Nat) (caller : Caller)
    (uploaded : ∀ bundle left, phase = .uploading bundle left → Uploaded config world caller.call.key bundle left) :
    Whole config (world.setPhase id caller phase) none where
  rows := whole.rows
  callers := fun other found bundle left held uploading => by
    rw [World.setPhase,Dict.lookup_put] at held
    split at held
    · cases held
      exact uploaded bundle left uploading
    · exact whole.callers other found bundle left held uploading
  publishers := whole.publishers

-- A step that changes one publication.
theorem Whole.change {publishers : List (Nat × Publisher)} (whole : Whole config world rewritten) (id : Nat)
    (others : ∀ other, other ≠ id → publishers.lookup other = world.publishers.lookup other)
    (uploaded : ∀ publisher, publishers.lookup id = some publisher →
      Uploaded config world publisher.publication.key publisher.publication.bundle publisher.left)
    (kept : ∀ key, world.ready config key = true → Unbegun config {world with publishers:=publishers} key →
      some key ≠ spared → some key ≠ rewritten ∧ ∀ old, world.publishers.lookup id = some old →
        old.publication.key = key → old.left = uploads config old.publication.bundle) :
    Whole config {world with publishers:=publishers} spared where
  rows := fun key row held ready apart unbegun => by
    obtain ⟨spoken,same⟩ := kept key ((ready_iff key).mpr ⟨row,held,ready⟩) unbegun apart
    refine whole.rows key row held ready spoken fun other publisher found mine => ?_
    by_cases changed : other = id
    · subst changed
      exact same publisher found mine
    · exact unbegun other publisher ((others other changed).trans found) mine
  callers := whole.callers
  publishers := fun other publisher found => by
    by_cases changed : other = id
    · subst changed
      exact uploaded publisher found
    · exact whole.publishers other publisher ((others other changed).symm.trans found)

theorem Whole.publish {publisher : Publisher} (whole : Whole config world rewritten) (id : Nat)
    (uploaded : Uploaded config world publisher.publication.key publisher.publication.bundle publisher.left)
    (kept : ∀ key, Unbegun config {world with publishers:=Dict.put id publisher world.publishers} key →
      some key ≠ rewritten ∧ ∀ old, world.publishers.lookup id = some old → old.publication.key ≠ key) :
    Whole config {world with publishers:=Dict.put id publisher world.publishers} none := by
  refine whole.change id (fun other differs => ?_) (fun later found => ?_) fun key _ unbegun _ =>
    ⟨(kept key unbegun).1,fun old found same => absurd same ((kept key unbegun).2 old found)⟩
  · rw [Dict.lookup_put,if_neg differs]
  · rw [Dict.lookup_put,if_pos rfl] at found
    cases found
    exact uploaded

theorem Whole.release (whole : Whole config world none) (id : Nat)
    (kept : ∀ old, world.publishers.lookup id = some old → some old.publication.key = spared ∨
      (world.ready config old.publication.key = true → old.left = uploads config old.publication.bundle)) :
    Whole config {world with publishers:=world.publishers.filter fun entry => entry.1 ≠ id} spared := by
  refine whole.change id (fun other differs => ?_) (fun later found => ?_) fun key ready _ apart =>
    ⟨Option.some_ne_none _,fun old found same => ?_⟩
  · rw [Dict.lookup_without,if_neg differs]
  · rw [Dict.lookup_without,if_pos rfl] at found
    cases found
  · subst same
    exact ((kept old found).resolve_left apart) ready

theorem Whole.copy (whole : Whole config world none) (held : world.row origin = some found)
    (ready : found.isReady config = true) (unbegun : Unbegun config world origin) (inline : row.inline = found.inline)
    (blobKey : row.blobKey = found.blobKey) : Intact (world.write key row (world.builds.lookup origin)) key row := by
  obtain ⟨bundle,from_,built,parts⟩ := whole.rows origin found held ready (Option.some_ne_none _) unbegun
  rw [built]
  refine ⟨bundle,from_,lookup_builds_write_self key row bundle,fun kind => ?_⟩
  rw [inline,blobKey]
  exact parts kind

theorem step_whole (storage : config.storage = true) (stepped : step config world event = some next)
    (quiet : undisturbed config world event = true) (whole : Whole config world none) :
    Whole config next none := by
  cases step_next stepped with
  | pass seconds => exact ⟨whole.rows,whole.callers,whole.publishers⟩
  | call id call free => exact whole.setPhase id ⟨call,.gone⟩ fun _ _ => Phase.noConfusion
  | same event => exact whole
  | moves event id caller phase found moved =>
    refine whole.setPhase id caller fun bundle left uploading => ?_
    subst uploading
    generalize caller.phase = before at moved
    cases moved
  | built id caller claimedAt bundle found phase =>
    refine whole.setPhase id caller fun part left uploading => ?_
    obtain ⟨rfl,rfl⟩ := Phase.uploading.inj uploading
    exact uploaded_start storage _ _
  | claim id caller deadline found phase unserved =>
    exact (whole.unready (claimedRow_unready _ _ _)).setPhase id caller fun _ _ => Phase.noConfusion
  | copy id caller deadline origin row hash found phase unserved held reusable hashed =>
    simp only [Materialize.reusable,decide_eq_true_eq] at reusable
    simp only [undisturbed,Option.all_some,decide_eq_true_eq] at quiet
    refine ((whole.spare _).wrote fun _ => ?_).setPhase id caller fun _ _ => Phase.noConfusion
    have ready := (ready_iff origin).mpr ⟨row,held,reusable.1⟩
    exact whole.copy held reusable.1 (unbegun_of_not_refreshing (quiet ready)) rfl rfl
  | failure id caller claimedAt error deterministic found phase unbound =>
    exact (whole.unready (failedRow_unready _ _ _ _)).setPhase id caller fun _ _ => Phase.noConfusion
  | put id caller bundle kind left found phase =>
    simp only [undisturbed,found,Option.all_some,phase] at quiet
    have put := whole.put quiet
    refine put.setPhase id caller fun part rest uploading => ?_
    obtain ⟨rfl,rfl⟩ := Phase.uploading.inj uploading
    exact (put.callers id caller bundle (kind :: left) found phase).advance
  | finish id caller bundle found phase unlocked unready =>
    have uploaded := whole.callers id caller bundle [] found phase
    exact ((whole.spare _).wrote fun _ => uploaded.intact storage rfl).setPhase id caller fun _ _ => Phase.noConfusion
  | publish id publication free unlocked writes =>
    refine whole.publish id (uploaded_start storage _ _) fun key _ => ⟨Option.some_ne_none _,fun old found => ?_⟩
    rw [free] at found
    cases found
  | putPublished id publisher kind left found rest =>
    simp only [undisturbed,found,Option.all_some,rest,List.head?_cons] at quiet
    have put := whole.put quiet
    have uploaded := put.publishers id publisher found
    rw [rest] at uploaded
    refine put.publish id uploaded.advance fun key unbegun => ?_
    have apart : publisher.publication.key ≠ key := by
      rintro rfl
      have full := unbegun id _ ((Dict.lookup_put _ _ _ _).trans (if_pos rfl)) rfl
      have short := uploaded.1.length_le
      rw [← full] at short
      exact absurd short (by simp)
    refine ⟨fun same => apart (Option.some.inj same).symm,fun old held => ?_⟩
    obtain rfl : publisher = old := Option.some.inj (found.symm.trans held)
    exact apart
  | commit id publisher found rest =>
    have uploaded := whole.publishers id publisher found
    rw [rest] at uploaded
    refine (whole.release id fun old held => .inl ?_).wrote fun _ => uploaded.intact storage rfl
    rw [Option.some.inj (held.symm.trans found)]
  | release event id abandoned =>
    refine whole.release id fun publisher found => .inr ?_
    cases event with
    | crashPublished other | commitPublished other =>
      simpa only [undisturbed,abandoned,Option.all_some,found,decide_eq_true_eq] using quiet
    | _ => cases abandoned

end Steps

theorem bundle_never_torn (config : Config) (storage : config.storage = true) (world final : World)
    (events : List Event) (fresh : ∀ key, world.ready config key = false)
    (idle : ∀ id, world.callers.lookup id = none) (unpublished : ∀ id, world.publishers.lookup id = none)
    (ran : run (step config) world events = some final)
    (quiet : Throughout (step config) (fun world event => undisturbed config world event = true) world events)
    (key : Key) (row : Row) (held : final.row key = some row) (ready : row.isReady config = true)
    (settled : final.refreshing config key = false) :
    ∃ bundle, final.builds.lookup key = some bundle ∧ ∀ kind, hydrate config final row kind = bundle.payload kind := by
  have start : Whole config world none :=
    { rows := fun key row held ready => by
        have unready := fresh key
        rw [World.ready,held,Option.any_some,ready] at unready
        cases unready
      callers := fun id caller _ _ found => by
        rw [idle id] at found
        cases found
      publishers := fun id publisher found => by
        rw [unpublished id] at found
        cases found }
  have whole := run_keeps (fun stepped meets held => step_whole storage stepped meets held) events ran quiet start
  exact (whole.rows key row held ready (Option.some_ne_none _) (unbegun_of_not_refreshing settled)).hydrates storage

def bucketed : Config := {fifteenMinutes with storage:=true}

def World.idle (world : World) : Bool :=
  world.publishers.isEmpty ∧ world.callers.all fun entry => match entry.2.phase with
  | .returned _ => true
  | .remembered _ => true
  | .gone => true
  | _ => false

def World.hydrated (config : Config) (world : World) (key : Key) : List (Option Payload) :=
  kinds.map fun kind => (world.row key).bind fun row => hydrate config world row kind

-- A build, and then a refresh with other contents.
def refreshed : List Event :=
  [.call 1 vaultCall,.poll 1 none,.build 1 vaultBundle,.put 1,.put 1,.put 1,.finish 1,
    .publish 2 {key:=vault,address:="0x01",bundle:={payload:=fun _ => some "second"},refreshOnDiffer:=true},
    .putPublished 2,.putPublished 2,.putPublished 2,.commitPublished 2]

theorem refresh_hydrates : ∃ final row bundle, run (step bucketed) {now:=0} refreshed = some final ∧
    final.row vault = some row ∧ row.isReady bucketed = true ∧
    final.hydrated bucketed vault = [some "second",some "second",some "second"] ∧
    final.builds.lookup vault = some bundle ∧ ∀ kind, hydrate bucketed final row kind = bundle.payload kind := by
  obtain ⟨bundle,built,hydrates⟩ := bundle_never_torn bucketed rfl {now:=0} _ refreshed (fun _ => rfl) (fun _ => rfl)
    (fun _ => rfl) rfl (.of_check refreshed (by decide)) vault _ rfl rfl rfl
  exact ⟨_,_,bundle,rfl,rfl,rfl,rfl,built,hydrates⟩

-- The builder that was taken over uploads its analysis over the other's and
-- stops there.
def lateUpload : List Event :=
  [.call 1 vaultCall,.poll 1 none,.pass 900,.call 2 vaultCall,.poll 2 none,.build 2 {payload:=fun _ => some "second"},
      .put 2,.put 2,.put 2,.finish 2,.build 1 {payload:=fun _ => some "first"},.put 1,.crash 1]

theorem late_upload_tears_bundle :
    ((run (step bucketed) {now:=0} lateUpload).any fun world => world.idle ∧ world.ready bucketed vault ∧
    world.hydrated bucketed vault = [some "first",some "second",some "second"]) = true := by
  decide

end Psat.Materialize
