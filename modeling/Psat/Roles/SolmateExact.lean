import Psat.Events.Exact
import Psat.Roles.Solmate

namespace Psat.Roles
open Psat.General List
open Psat.Capability
open Psat.Events
open Psat.Indexer (Entry FetchedEventLog IndexedEventLog)
open RoleFold (publicAt rolesOf row userRole usersOf)
open List (replicate)
open String (ofList)

-- Twenty and four bytes as lowercase hexadecimal digits.
structure Address where
  body : List Char
  digits : body.length = 40
  lowered : body.map Char.toLower = body

structure Selector where
  body : List Char
  digits : body.length = 8
  lowered : body.map Char.toLower = body

def Address.text (address : Address) : String := ofList ('0' :: 'x' :: address.body)

def Selector.text (selector : Selector) : String := ofList ('0' :: 'x' :: selector.body)

def Address.word (address : Address) : String := ofList ('0' :: 'x' :: (replicate 24 '0' ++ address.body))

def Selector.word (selector : Selector) : String := ofList ('0' :: 'x' :: (selector.body ++ replicate 56 '0'))

def hexChar (n : Fin 16) : Char := "0123456789abcdef".toList.getD n.val '0'

def roleWord (role : Fin 256) : String :=
  ofList ('0' :: 'x' :: (replicate 62 '0' ++ [hexChar ⟨role.val / 16,by omega⟩,hexChar ⟨role.val % 16,by omega⟩]))

def boolWord (enabled : Bool) : String :=
  ofList ('0' :: 'x' :: (replicate 63 '0' ++ [if enabled then '1' else '0']))

-- What a RolesAuthority emits for each change it makes.
inductive RoleEvent
  | roleCapability (role : Fin 256) (target : Address) (selector : Selector) (enabled : Bool)
  | publicCapability (target : Address) (selector : Selector) (enabled : Bool)
  | userRole (user : Address) (role : Fin 256) (enabled : Bool)

namespace RoleEvent

def topics : RoleEvent → List String
  | roleCapability role target selector _ => [roleCapabilityUpdated,roleWord role,target.word,selector.word]
  | publicCapability target selector _ => [publicCapabilityUpdated,target.word,selector.word]
  | userRole user role _ => [userRoleUpdated,user.word,roleWord role]

def enabled : RoleEvent → Bool
  | roleCapability _ _ _ enabled => enabled
  | publicCapability _ _ enabled => enabled
  | userRole _ _ enabled => enabled

structure Encoded (event : RoleEvent) (entry : Entry) : Prop where
  topics : entry.topics = event.topics
  data : entry.dataWords = [boolWord event.enabled]

end RoleEvent

structure Authority where
  hasRole : String → Fin 256 → Bool
  hasCapability : String → String → Fin 256 → Bool
  isPublic : String → String → Bool

namespace Authority

def initial : Authority := ⟨fun _ _ => false,fun _ _ _ => false,fun _ _ => false⟩

def step (authority : Authority) : RoleEvent → Authority
  | .roleCapability role target selector enabled =>
    {authority with hasCapability:=fun t s r =>
        if t = target.text ∧ s = selector.text ∧ r = role then enabled else authority.hasCapability t s r}
  | .publicCapability target selector enabled =>
    {authority with isPublic:=fun t s => if t = target.text ∧ s = selector.text then enabled
                    else authority.isPublic t s}
  | .userRole user role enabled =>
    {authority with hasRole:=fun u r => if u = user.text ∧ r = role then enabled else authority.hasRole u r}

def canCall (authority : Authority) (user target selector : String) : Prop :=
  authority.isPublic target selector = true ∨
    ∃ role, authority.hasRole user role = true ∧ authority.hasCapability target selector role = true

end Authority

open Authority

theorem lower_zero_x (lowered : body.map Char.toLower = body) :
    Text.lower (ofList ('0' :: 'x' :: body)) = ofList ('0' :: 'x' :: body) := by
  simp only [Text.lower,String.toList_ofList,map_cons,lowered]
  rfl

@[simp] theorem wordAddr_word (address : Address) : wordAddr address.word = some address.text := by
  have long : ¬ (address.word.toList.length < 40) := by
    simp [Address.word,address.digits]
  have last : lastAddress address.word = address.text := by
    simp only [lastAddress,Address.word,Address.text,String.toList_ofList]
    have size : ('0' :: 'x' :: (replicate 24 '0' ++ address.body)).length - 40 = 26 := by
      simp [address.digits]
    rw [size]
    rfl
  rw [wordAddr,if_neg long,last,Address.text,lower_zero_x address.lowered]

@[simp] theorem wordSelector_word (selector : Selector) : wordSelector selector.word = some selector.text := by
  have start : Text.startsWith selector.word "0x" = true := by
    simp [Text.startsWith,Selector.word]
  have long : 10 ≤ selector.word.toList.length := by
    simp [Selector.word,selector.digits]
  have first : selector.word.toList.take 10 = '0' :: 'x' :: selector.body := by
    simp [Selector.word,selector.digits]
  rw [wordSelector,if_pos ⟨start,long⟩,first,lower_zero_x selector.lowered]
  rfl

theorem hexDigits_zeros (count : Nat) : hexDigits 0 (replicate count '0' ++ rest) = hexDigits 0 rest := by
  induction count with
  | zero => rfl
  | succ count ih =>
    exact ih

theorem parseHex_padded (count : Nat) (middle : List Char) (last : Char) (visible : last.isWhitespace = false) :
    parseHex (ofList ('0' :: 'x' :: (replicate (count + 1) '0' ++ (middle ++ [last])))) =
      (hexDigits 0 (middle ++ [last])).map Int.ofNat := by
  have stripped : ((ofList ('0' :: 'x' :: (replicate (count + 1) '0' ++ (middle ++ [last])))).toList.dropWhile
    Char.isWhitespace).reverse.dropWhile Char.isWhitespace =
    ('0' :: 'x' :: (replicate (count + 1) '0' ++ (middle ++ [last]))).reverse := by
    have first : Char.isWhitespace '0' = false := by decide
    simp [first,visible]
  unfold parseHex
  rw [stripped]
  simp only [reverse_reverse]
  have digits : hexBody ('0' :: 'x' :: '0' :: (replicate count '0' ++ (middle ++ [last]))) =
    hexDigits 0 (replicate count '0' ++ (middle ++ [last])) := rfl
  exact congrArg (Option.map Int.ofNat) (digits.trans (hexDigits_zeros count))

theorem hexDigit_hexChar : hexDigit (hexChar n) = some n.val := by
  revert n
  decide

theorem hexChar_visible : (hexChar n).isWhitespace = false := by
  revert n
  decide

theorem hexChar_not_underscore : hexChar n ≠ '_' := by
  revert n
  decide

@[simp] theorem wordInt_roleWord (role : Fin 256) : wordInt (roleWord role) = role.val := by
  have high : role.val / 16 < 16 := by omega
  have low : role.val % 16 < 16 := by omega
  have parsed := parseHex_padded 61 [hexChar ⟨role.val / 16,high⟩] (hexChar ⟨role.val % 16,low⟩) (hexChar_visible)
  have digits : hexDigits 0 ([hexChar ⟨role.val / 16,high⟩] ++ [hexChar ⟨role.val % 16,low⟩]) = some role.val := by
    have sum : 16 * (role.val / 16) + role.val % 16 = role.val := by omega
    simp [hexDigits,hexDigit_hexChar,hexChar_not_underscore,sum]
  rw [digits] at parsed
  unfold wordInt roleWord
  rw [show (replicate 62 '0' ++ [hexChar ⟨role.val / 16,high⟩,hexChar ⟨role.val % 16,low⟩]) =
    replicate (61 + 1) '0' ++ ([hexChar ⟨role.val / 16,high⟩] ++ [hexChar ⟨role.val % 16,low⟩]) from rfl,parsed]
  rfl

@[simp] theorem wordBool_boolWord (enabled : Bool) : wordBool (boolWord enabled) = enabled := by
  revert enabled
  decide +kernel

theorem mem_toggle [DecidableEq α] (item other : α) (enabled : Bool) (bucket : List α) :
    other ∈ toggle item enabled bucket ↔ if other = item then enabled = true else other ∈ bucket := by
  unfold toggle
  by_cases same : other = item
  · subst same
    cases enabled <;> simp [Ordered.mem_insertKey]
  · cases enabled <;> simp [Ordered.mem_insertKey,same]

-- The three dictionaries say what the authority's storage says.
structure Agrees (fold : RoleFold) (authority : Authority) : Prop where
  capability : ∀ target selector role, role ∈ fold.rolesOf (some target,some selector) ↔
    ∃ r : Fin 256, (r.val : Int) = role ∧ authority.hasCapability target selector r = true
  isPublic : ∀ target selector, fold.publicAt (some target,some selector) = authority.isPublic target selector
  role : ∀ user role, user ∈ fold.usersOf role ↔ ∃ r : Fin 256, (r.val : Int) = role ∧ authority.hasRole user r = true
  lowered : ∀ user role, user ∈ fold.usersOf role → Text.lower user = user

theorem agrees_initial : Agrees {} initial := by
  constructor
  · simp [rolesOf,initial]
  · simp [publicAt,initial]
  · simp [usersOf,initial]
  · simp [usersOf]

theorem roleTopics_lowered : Lowered roleTopics := by
  intro topic member
  simp only [roleTopics,mem_cons,not_mem_nil,or_false] at member
  rcases member with rfl | rfl | rfl <;> decide +kernel

theorem fin_val_eq (a b : Fin 256) : (a.val : Int) = (b.val : Int) ↔ a = b := by
  rw [Int.ofNat_inj,Fin.val_inj]

theorem role_elsewhere {r : Int} {fine other : Fin 256 → Prop} (same : r ≠ role.val)
    (alike : ∀ r' ≠ role, (fine r' ↔ other r')) :
    (∃ r' : Fin 256, (r'.val : Int) = r ∧ fine r') ↔ ∃ r' : Fin 256, (r'.val : Int) = r ∧ other r' := by
  refine exists_congr fun r' => and_congr_right fun is => alike r' ?_
  rintro rfl
  exact same is.symm

section
variable (agrees : Agrees fold authority)
include agrees

theorem agrees_roleCapability (role : Fin 256) (target : Address) (selector : Selector) (enabled : Bool) :
    Agrees (fold.roleCapability (roleWord role) target.word selector.word enabled)
      (authority.step (.roleCapability role target selector enabled)) := by
  refine ⟨?_,agrees.isPublic,agrees.role,agrees.lowered⟩
  intro t s r
  have looked : (fold.roleCapability (roleWord role) target.word selector.word enabled).rolesOf (some t,some s) =
    if t = target.text ∧ s = selector.text then toggle (role.val : Int) enabled (fold.rolesOf (some t,some s))
    else fold.rolesOf (some t,some s) := by
    simp only [RoleFold.roleCapability,rolesOf,wordAddr_word,wordSelector_word,wordInt_roleWord,Dict.lookup_put,
      Prod.mk.injEq,Option.some.injEq]
    split
    · rename_i same
      rw [same.1,same.2]
      rfl
    · rfl
  rw [looked]
  simp only [step]
  by_cases here : t = target.text ∧ s = selector.text
  · rw [if_pos here,mem_toggle]
    by_cases same : r = (role.val : Int)
    · subst same
      simp only [if_true,fin_val_eq,here,true_and,exists_eq_left]
    · rw [if_neg same,agrees.capability]
      exact role_elsewhere same fun r' differs => by rw [if_neg]; simp [differs]
  · rw [if_neg here,agrees.capability]
    have other : ∀ r', ¬ (t = target.text ∧ s = selector.text ∧ r' = role) := fun r' all => here ⟨all.1,all.2.1⟩
    simp only [if_neg (other _)]

theorem agrees_publicCapability (target : Address) (selector : Selector) (enabled : Bool) :
    Agrees (fold.publicCapability target.word selector.word enabled)
    (authority.step (.publicCapability target selector enabled)) := by
  refine ⟨agrees.capability,?_,agrees.role,agrees.lowered⟩
  intro t s
  have before := agrees.isPublic t s
  simp only [RoleFold.publicCapability,publicAt,wordAddr_word,wordSelector_word,Dict.lookup_put,Prod.mk.injEq,
    Option.some.injEq,step]
  split
  · rfl
  · exact before

theorem agrees_userRole (user : Address) (role : Fin 256) (enabled : Bool) :
    Agrees (fold.userRole user.word (roleWord role) enabled) (authority.step (.userRole user role enabled)) := by
  have looked : ∀ r, (fold.userRole user.word (roleWord role) enabled).usersOf r =
    if r = (role.val : Int) then toggle user.text enabled (fold.usersOf r) else fold.usersOf r := by
    intro r
    simp only [userRole,usersOf,wordAddr_word,wordInt_roleWord,Dict.lookup_put]
    split
    · rename_i same
      rw [same]
      rfl
    · rfl
  refine ⟨?_,?_,?_,?_⟩
  · simpa [userRole,rolesOf,step] using agrees.capability
  · simpa [userRole,publicAt,step] using agrees.isPublic
  · intro u r
    rw [looked]
    simp only [step]
    by_cases same : r = (role.val : Int)
    · subst same
      rw [if_pos rfl,mem_toggle]
      by_cases here : u = user.text
      · simp only [here,if_true,fin_val_eq,exists_eq_left,and_self]
      · simp [here,agrees.role]
    · rw [if_neg same,agrees.role]
      exact role_elsewhere same fun r' differs => by rw [if_neg]; simp [differs]
  · intro u r member
    rw [looked] at member
    split at member
    · rw [mem_toggle] at member
      split at member
      · rename_i here
        rw [here]
        exact lower_zero_x user.lowered
      · exact agrees.lowered u r member
    · exact agrees.lowered u r member

theorem agrees_row (encoded : event.Encoded entry) :
    Agrees (fold.row entry) (authority.step event) := by
  have flag : (entry.dataWords.head?.map wordBool).getD false = event.enabled := by
    rw [encoded.data]
    simp
  unfold row
  rw [flag,encoded.topics]
  cases event with
  | roleCapability role target selector enabled =>
    exact agrees_roleCapability agrees role target selector enabled
  | publicCapability target selector enabled =>
    exact agrees_publicCapability agrees target selector enabled
  | userRole user role enabled =>
    exact agrees_userRole agrees user role enabled

end

-- A history in which the authority emits one event for each change it makes.
structure RolesHistory (authority : String) extends History where
  event : IndexedEventLog → RoleEvent
  encoded : ∀ log ∈ logs, History.covers authority roleTopics log = true → (event log).Encoded log.entry

namespace RolesHistory

def logsThrough (history : RolesHistory authority) (block : Nat) : List IndexedEventLog :=
  history.toHistory.through authority roleTopics fun _ => block

def stateAfter (history : RolesHistory authority) (block : Nat) : Authority :=
  ((history.logsThrough block).map history.event).foldl .step .initial

theorem foldRows_agrees (history : RolesHistory authority) (block : Nat) :
    Agrees (foldRows ((history.logsThrough block).map storedRow)) (history.stateAfter block) := by
  have run : ∀ (logs : List IndexedEventLog) (fold : RoleFold) (state : Authority), Agrees fold state →
    (∀ log ∈ logs, (history.event log).Encoded log.entry) →
    Agrees ((logs.map storedRow).foldl (fun fold row => fold.row row.entry) fold)
      ((logs.map history.event).foldl .step state) := by
    intro logs
    induction logs with
    | nil => exact fun _ _ agrees _ => agrees
    | cons log rest ih =>
      intro fold state agrees encoded
      apply ih
      · exact agrees_row agrees (encoded log mem_cons_self)
      · exact (forall_mem_cons.mp encoded).2
  apply run _ _ _ agrees_initial
  intro log member
  simp only [logsThrough,History.through,mem_filter,Bool.and_eq_true] at member
  exact history.encoded log member.1 member.2.1

end RolesHistory

def Admits (cap : CapabilityExpr) (user : String) : Prop :=
  match cap.kind with
  | .finiteSet => user ∈ cap.members.getD []
  | .conditionalUniversal => True
  | _ => False

theorem readRows_ok (read : readRows repo authority block = .ok rows) :
    rows = (repo.selectRows authority roleTopics (some block)).map storedRow := by
  unfold readRows at read
  split at read
  · rename_i stored found
    cases read
    rw [iterEventRows_ok roleTopics_lowered found]
  · cases read

theorem loadRoleState_reads {history : RolesHistory authority} (holds : repo.Holds history.toHistory)
    (sound : ∀ scan ∈ ctx.tailScanner, TailSound history.toHistory scan)
    (loaded : loadRoleState repo authority ctx = .ok state) :
    ∃ least block, repo.minIndexedBlock authority roleTopics = some least ∧ ctx.block = some block ∧
      state.fold = foldRows ((history.logsThrough block).map storedRow) ∧ state.coveredThrough = max least block := by
  revert loaded
  fun_cases loadRoleState repo authority ctx with
  | case3 least found block pinned covered =>
    intro loaded
    obtain ⟨cut,cursors,_⟩ := warmBlock_states (minIndexedBlock_warm found)
    have below : block ≤ least := of_decide_eq_true covered
    obtain ⟨rows,read,made⟩ := ok_bind.mp loaded
    cases made
    refine ⟨least,block,found,pinned,?_,(Nat.max_eq_left below).symm⟩
    rw [readRows_ok read,selectRows_behind holds roleTopics_lowered cursors below]
    rfl
  | case5 least found block pinned uncovered scanner given scan complete =>
    intro loaded
    obtain ⟨cut,cursors,_⟩ := warmBlock_states (minIndexedBlock_warm found)
    rw [Bool.not_eq_true] at uncovered
    have behind := covers_false uncovered
    obtain ⟨durable,read,made⟩ := ok_bind.mp loaded
    cases made
    have scanned := sound scanner given authority roleTopics least block roleTopics_lowered complete
    have joined := rows_with_tail holds roleTopics_lowered cursors (sound scanner given) complete (Nat.le_of_lt behind)
    refine ⟨least,block,found,pinned,?_,?_⟩
    · rw [readRows_ok read,joined]
      rfl
    · simp only [scan,scanned.1]
      omega
  | _ => rintro ⟨⟩

theorem mem_members (agrees : Agrees fold state) (closed : fold.publicAt (some target,some selector) = false)
    (user : String) :
    user ∈ canonAddresses ((fold.rolesOf (some target,some selector)).flatMap fold.usersOf) ↔
    state.canCall user target selector := by
  have shut : state.isPublic target selector = false := (agrees.isPublic target selector).symm.trans closed
  simp only [mem_canonAddresses,mem_flatMap,canCall,shut,Bool.false_eq_true,false_or]
  constructor
  · rintro ⟨member,⟨role,held,inside⟩,rfl⟩
    rw [agrees.lowered member role inside]
    obtain ⟨r,rfl,capable⟩ := (agrees.capability target selector role).mp held
    obtain ⟨r',same,holds⟩ := (agrees.role member r.val).mp inside
    rw [fin_val_eq] at same
    subst same
    exact ⟨r',holds,capable⟩
  · rintro ⟨role,holds,capable⟩
    have inside := (agrees.role user role.val).mpr ⟨role,rfl,holds⟩
    exact ⟨user,⟨role.val,(agrees.capability target selector role.val).mpr ⟨role,rfl,capable⟩,inside⟩,
      agrees.lowered _ _ inside⟩

theorem answer_admits (agrees : Agrees state.fold storage)
    (answered : (answer authority target selector descriptor state).kind ≠ .externalCheckOnly) (user : String) :
    Admits (answer authority target selector descriptor state) user ↔ storage.canCall user target selector := by
  unfold answer at answered ⊢
  split at answered
  · rename_i opened
    rw [if_pos opened]
    have shown : storage.isPublic target selector = true := (agrees.isPublic target selector).symm.trans opened
    simp [Admits,publicCapabilityAnswer,CapabilityExpr.conditionalUniversal,canCall,shown]
  · rename_i closed
    rw [if_neg closed]
    split at answered
    · rename_i rows
      rw [if_pos rows]
      rw [Bool.not_eq_true] at closed
      exact mem_members agrees closed user
    · exact absurd rfl answered

inductive Publishes (repo : EventIndex) (authority : String) (ctx : EvaluationContext) (cap : CapabilityExpr) :
    Nat → Prop
  | exact {height : Nat} : cap.kind = .finiteSet → cap.membershipQuality = .exact → cap.lastIndexedBlock = some height →
    Publishes repo authority ctx cap height
  | everyone {state : RoleState} : cap.kind = .conditionalUniversal → loadRoleState repo authority ctx = .ok state →
    Publishes repo authority ctx cap state.coveredThrough

-- Right exactly when the height is not past the block, or no role log between changes the outcome.
theorem canCall_published_iff {descriptor : Descriptor} {ctx : EvaluationContext} {repo : EventIndex}
    {authority target selector : String} {history : RolesHistory authority} (holds : repo.Holds history.toHistory)
    (sound : ∀ scan ∈ ctx.tailScanner, TailSound history.toHistory scan)
    (resolved : resolveAuthorityAddress descriptor ctx = some authority) (targeted : targetOf ctx = some target)
    (selected : resolveTargetSelector descriptor ctx = some selector) (reading : ctx.eventLogRepo = some repo)
    {height : Nat} (published : Publishes repo authority ctx (enumerate descriptor ctx) height) :
    (∀ user, Admits (enumerate descriptor ctx) user ↔ (history.stateAfter height).canCall user target selector) ↔
      ∀ least block, repo.minIndexedBlock authority roleTopics = some least → ctx.block = some block →
        least ≤ block ∨ ∀ user, (history.stateAfter block).canCall user target selector ↔
          (history.stateAfter least).canCall user target selector := by
  have answered : (enumerate descriptor ctx).kind ≠ .externalCheckOnly := by
    cases published with
    | exact kind _ _ => simp [kind]
    | everyone kind _ => simp [kind]
  cases loaded : loadRoleState repo authority ctx with
  | error basis =>
    have shape : enumerate descriptor ctx = checkOnly (some authority) descriptor [basis] := by
      unfold enumerate
      simp only [resolved,targeted,selected,reading,loaded]
    rw [shape] at answered
    exact absurd rfl answered
  | ok state =>
    have shape : enumerate descriptor ctx = answer authority target selector descriptor state := by
      unfold enumerate
      simp only [resolved,targeted,selected,reading,loaded]
    obtain ⟨least,block,found,pinned,folded,recorded⟩ := loadRoleState_reads holds sound loaded
    have agrees : Agrees state.fold (history.stateAfter block) := by
      rw [folded]
      exact history.foldRows_agrees block
    have stands : height = max least block := by
      rw [← recorded]
      cases published with
      | exact kind _ stamped =>
        rw [shape] at kind stamped
        simp only [answer] at kind stamped
        split at stamped
        · cases stamped
        · split at stamped
          · exact (Option.some.inj stamped).symm
          · cases stamped
      | everyone _ again =>
        rw [loaded] at again
        cases again
        rfl
    have admits : ∀ user, Admits (enumerate descriptor ctx) user ↔
      (history.stateAfter block).canCall user target selector := by
      rw [shape] at answered ⊢
      exact answer_admits agrees answered
    rw [stands]
    constructor
    · intro holdsAt least' block' found' pinned'
      rw [found] at found'
      rw [pinned] at pinned'
      cases found'
      cases pinned'
      by_cases below : least ≤ block
      · exact .inl below
      · right
        intro user
        have above : max least block = least := Nat.max_eq_left (by omega)
        rw [above] at holdsAt
        exact (admits user).symm.trans (holdsAt user)
    · intro condition user
      rcases condition least block found pinned with below | same
      · rw [Nat.max_eq_right below]
        exact admits user
      · rcases Nat.le_total least block with below | above
        · rw [Nat.max_eq_right below]
          exact admits user
        · rw [Nat.max_eq_left above]
          exact (admits user).trans (same user)

-- A keeper gets a role at 5, the role a function at 6, and loses it at 15; the block is 10.
def keeper : Address := ⟨replicate 40 '1',rfl,rfl⟩

def vault : Address := ⟨replicate 40 '2',rfl,rfl⟩

def pause : Selector := ⟨replicate 8 '3',rfl,rfl⟩

def rolesAuthority : String := "0xaaaaaaaaaaaaaaaaaaaaaaaaaaaaaaaaaaaaaaaa"

def keeperEvent (block : Nat) : RoleEvent :=
  if block = 5 then .userRole keeper 1 true
  else if block = 6 then .roleCapability 1 vault pause true
  else .userRole keeper 1 false

def keeperLog (block : Nat) : IndexedEventLog where
  key := ⟨rolesAuthority,(keeperEvent block).topics.headD ""⟩
  entry :=
    { txHash:="0xt",logIndex:=0,blockNumber:=block,blockHash:="0xb",transactionIndex:=0
      topics:=(keeperEvent block).topics,dataWords:=[boolWord (keeperEvent block).enabled] }

def keeperLogs : List IndexedEventLog := [keeperLog 5,keeperLog 6,keeperLog 15]

def keeperHistory : RolesHistory rolesAuthority where
  logs := keeperLogs
  ordered := by decide
  named := by
    intro log member
    simp only [keeperLogs,mem_cons,not_mem_nil,or_false] at member
    rcases member with rfl | rfl | rfl <;> exact congrArg some (roleTopics_lowered _ (by simp [roleTopics]))
  event log := keeperEvent log.entry.blockNumber
  encoded := by
    intro log member _
    simp only [keeperLogs,mem_cons,not_mem_nil,or_false] at member
    rcases member with rfl | rfl | rfl <;> exact ⟨rfl,rfl⟩

def keeperIndex : EventIndex where
  cursors := roleTopics.map fun topic =>
    { key:=⟨rolesAuthority,topic⟩,lastIndexedBlock:=20,backfillComplete:=true,enrolledSeedBlock:=0
      firstIndexedBlockBasis:=some .creationBlockMinusOne }
  logs := keeperLogs

theorem keeperIndex_holds : keeperIndex.Holds keeperHistory.toHistory := by
  have early : ∀ log ∈ keeperLogs, log.entry.blockNumber ≤ 20 := by decide
  refine ⟨by decide +kernel,?_⟩
  intro cursor present _ entry
  obtain ⟨topic,_,rfl⟩ := mem_map.mp present
  exact ⟨fun stored => ⟨stored,early _ stored⟩,fun stored => stored.1⟩

def keeperDescriptor : Descriptor := {authorityAddress:=some rolesAuthority,selectors:=[pause.text]}

def keeperContext : EvaluationContext :=
  {contractAddress:=some vault.text,block:=some 10,eventLogRepo:=some keeperIndex}

theorem keeper_answer :
    ((enumerate keeperDescriptor keeperContext).kind,(enumerate keeperDescriptor keeperContext).membershipQuality,
    (enumerate keeperDescriptor keeperContext).lastIndexedBlock,(enumerate keeperDescriptor keeperContext).members) =
    (.finiteSet,.exact,some 20,some [keeper.text]) := by
  decide +kernel

theorem keeper_published : Publishes keeperIndex rolesAuthority keeperContext
    (enumerate keeperDescriptor keeperContext) 20 := by
  have answer := keeper_answer
  simp only [Prod.mk.injEq] at answer
  exact .exact answer.1 answer.2.1 answer.2.2.1

-- The keeper is published as of block 20, where the keeper cannot call.
theorem revoked_keeper_published : keeperIndex.Holds keeperHistory.toHistory ∧
    Publishes keeperIndex rolesAuthority keeperContext (enumerate keeperDescriptor keeperContext) 20 ∧
    Admits (enumerate keeperDescriptor keeperContext) keeper.text ∧
    ¬ (keeperHistory.stateAfter 20).canCall keeper.text vault.text pause.text := by
  have answer := keeper_answer
  simp only [Prod.mk.injEq] at answer
  refine ⟨keeperIndex_holds,keeper_published,?_,?_⟩
  · simp [Admits,answer]
  · have all : keeperHistory.logsThrough 20 = keeperLogs := by decide +kernel
    have storage : keeperHistory.stateAfter 20 =
      ([keeperEvent 5,keeperEvent 6,keeperEvent 15].foldl .step .initial) := by
      unfold RolesHistory.stateAfter
      rw [all]
      rfl
    rw [storage]
    rintro (shown | ⟨role,held,_⟩)
    · cases shown
    · simp [keeperEvent,step,initial] at held

theorem canCall_published_iff_keeper :
    (∀ user, Admits (enumerate keeperDescriptor keeperContext) user ↔
      (keeperHistory.stateAfter 20).canCall user vault.text pause.text) ↔
      ∀ least block, keeperIndex.minIndexedBlock rolesAuthority roleTopics = some least →
      keeperContext.block = some block →
        least ≤ block ∨ ∀ user, (keeperHistory.stateAfter block).canCall user vault.text pause.text ↔
          (keeperHistory.stateAfter least).canCall user vault.text pause.text :=
  canCall_published_iff keeperIndex_holds (by simp [keeperContext]) (by decide +kernel) (by decide +kernel)
    (by decide +kernel) rfl keeper_published

end Psat.Roles
