import Psat.Text
import Psat.General.Dict

namespace Psat.Monitoring
open Psat.General

abbrev Address := String
abbrev Chain := String
abbrev Topic := String
abbrev ContractId := Nat

inductive Value
  | text (content : String)
  | number (content : Int)
  | flag (content : Bool)
deriving DecidableEq

structure EffectTags where
  writes : List String
  delegates : Bool := false

inductive WitnessTier
  | selfDescribing | hint | activity
deriving DecidableEq

structure TrackedTopic where
  topic0 : Topic
  eventType : String
  inputs : List String := []
  effectTags : Option EffectTags := none
  witnessTier : Option WitnessTier := none

structure Parsed where
  eventType : String
  effectTags : Option EffectTags := none
  inputs : Option (List String) := none
  fields : List (String × Value) := []

def Parsed.get (parsed : Parsed) (key : String) : Option Value := parsed.fields.lookup key

structure MonitoringConfig where
  flags : List (String × Bool) := []
  trackedTopics : List TrackedTopic := []

def writeTargetToConfigKeys : String → List String
  | "owner" | "_owner" | "pendingOwner" | "_pendingOwner" => ["watch_ownership"]
  | "admin" | "_admin" | "pendingAdmin" | "future_admin" => ["watch_upgrades","watch_ownership"]
  | "implementation" | "beacon" | "facets" | "pendingImplementation" | "_initialized" | "_initializing" =>
    ["watch_upgrades"]
  | "authority" => ["watch_authority"]
  | "paused" => ["watch_pause"]
  | "_roles" => ["watch_roles"]
  | "owners" | "threshold" | "_safe_op" | "_safe_module_op" => ["watch_safe_signers"]
  | "_safe_modules" | "_safe_guard" => ["watch_safe_modules"]
  | "_timelock_op" | "min_delay" => ["watch_timelock"]
  | _ => []

def handrolledEventTypeToTags : String → Option EffectTags
  | "upgraded" | "changed_master_copy" | "new_implementation" | "target_updated" | "upgraded_revision" =>
    some ⟨["implementation"],true⟩
  | "admin_changed" => some {writes:=["admin"]}
  | "beacon_upgraded" => some ⟨["beacon"],true⟩
  | "new_pending_implementation" => some {writes:=["pendingImplementation"]}
  | "diamond_cut" => some ⟨["facets"],true⟩
  | "ownership_transferred" => some {writes:=["owner"]}
  | "paused" | "unpaused" => some {writes:=["paused"]}
  | "role_granted" | "role_revoked" => some {writes:=["_roles"]}
  | "signer_added" | "signer_removed" | "signer_updated" => some {writes:=["owners"]}
  | "threshold_changed" => some {writes:=["threshold"]}
  | "timelock_scheduled" | "timelock_executed" => some {writes:=["_timelock_op"]}
  | "delay_changed" => some {writes:=["min_delay"]}
  | "safe_tx_executed" | "safe_tx_failed" => some {writes:=["_safe_op"]}
  | "safe_module_executed" | "safe_module_failed" => some {writes:=["_safe_module_op"]}
  | "safe_module_enabled" | "safe_module_disabled" => some {writes:=["_safe_modules"]}
  | "safe_guard_changed" => some {writes:=["_safe_guard"]}
  | "ownership_transfer_started" => some {writes:=["pendingOwner"]}
  | "authority_updated" => some {writes:=["authority"]}
  | "initialized" => some {writes:=["_initialized"]}
  | _ => none

def Parsed.tags (parsed : Parsed) : EffectTags :=
  (parsed.effectTags.or (handrolledEventTypeToTags parsed.eventType)).getD {writes:=[]}

def configKeys (parsed : Parsed) : List String :=
  (if parsed.tags.delegates then ["watch_upgrades"] else []) ++ parsed.tags.writes.flatMap writeTargetToConfigKeys

def shouldWatch (config : MonitoringConfig) (parsed : Parsed) : Bool :=
  let keys := configKeys parsed
  let anyFlag := keys.any fun key => (config.flags.lookup key).getD true
  if keys = [] then true
  else if keys.all (· = "watch_safe_signers") then
    if (config.flags.lookup "watch_safe_signers").getD false ||
      (config.flags.lookup "watch_signers").getD false then true
    else if (config.flags.lookup "watch_safe_signers").isSome || (config.flags.lookup "watch_signers").isSome then false
    else anyFlag
  else anyFlag

def extractPausedBool (parsed : Parsed) : Option Value :=
  if parsed.eventType = "paused" then some (.flag true) else if parsed.eventType = "unpaused" then some (.flag false)
    else none

def extractThreshold (parsed : Parsed) : Option Value := (parsed.get "threshold").or (parsed.get "new_threshold")

def extractInitializedVersion (parsed : Parsed) : Option Value := (parsed.get "version").or (parsed.get "initVersion")

-- The state key and the value of a canonical write target.
def writeTargetToState (parsed : Parsed) : String → Option (String × Option Value)
  | "owner" => some ("owner",parsed.get "new_owner")
  | "authority" => some ("authority",parsed.get "new_authority")
  | "paused" => some ("paused",extractPausedBool parsed)
  | "threshold" => some ("threshold",extractThreshold parsed)
  | "implementation" => some ("implementation",parsed.get "implementation")
  | "admin" => some ("admin",parsed.get "new_admin")
  | "beacon" => some ("beacon",parsed.get "beacon")
  | "min_delay" => some ("min_delay",parsed.get "new_delay")
  | "_initialized" => some ("initialized_version",extractInitializedVersion parsed)
  | _ => none

def capitalized (text : String) : String :=
  match text.toList with
  | [] => ""
  | first :: rest => String.ofList (first.toUpper :: rest)

def resolveValueForWriteTarget (parsed : Parsed) (writeTarget : String) : Option Value :=
  if Text.startsWith writeTarget "_" then none
  else
    let inputs := parsed.inputs.getD []
    let named := inputs.find? fun name => Text.startsWith (Text.lower name) "new" && (parsed.get name).isSome
    let last := inputs.getLast?.filter (· ≠ "")
    (parsed.get writeTarget).or <| (parsed.get ("new" ++ capitalized writeTarget)).or <|
        (named.bind parsed.get).or (last.bind parsed.get)

def isMemberChangedEventType (eventType : String) : Bool := Text.startsWith eventType "member_changed:"

def stateWrites (parsed : Parsed) : List (String × Value) :=
  if isMemberChangedEventType parsed.eventType then []
  else parsed.tags.writes.filterMap fun writeTarget =>
    match writeTargetToState parsed writeTarget with
    | some (stateKey,value) => value.map (stateKey,·)
    | none => (resolveValueForWriteTarget parsed writeTarget).map (writeTarget,·)

def updateStateFromEvent (state : List (String × Value)) (parsed : Parsed) : List (String × Value) :=
  Dict.write state (stateWrites parsed)

-- The value an event carries for a key of the state.
def Parsed.carries (parsed : Parsed) (key : String) : Option Value := (stateWrites parsed).reverse.lookup key

end Psat.Monitoring
