import Fireemu.Library.GroupedIndex
import Fireemu.PubSub.Subscription
import Fireemu.Types.Determinism

/-!
# The broker: topics, subscriptions and snapshots

The registry of topics, subscriptions and snapshots.  Operations take the time from their caller and
return a result together with the new state; also an operation that fails may have removed expired
snapshots.  What the registry only passes through (labels of topics, access policies, list pages) is
left out; the outcome of a check on left-out data is an argument.
-/

namespace Fireemu.PubSub

open Library (GroupedIndex SortedMap SortedSet)

def maxTopics : ℕ := 10000
def maxSubscriptions : ℕ := 10000
def maxMessagesPerPublish : ℕ := 1000
def maxSnapshots : ℕ := 10000
def snapshotTtlSeconds : ℤ := 7 * 24 * 60 * 60
def minSnapshotTtlSeconds : ℤ := 60 * 60
def maxSnapshotRetainedBytes : ℕ := 64 * 1024 * 1024
def maxPolicyIncarnation : ℕ := 0x00ffffff

/-- What the model takes from the platform: the sizes and capacities that the byte accounting of
snapshots reads, and the renderings that texts use. -/
structure Platform where
  sizeOfString : ℕ
  sizeOfArc : ℕ
  sizeOfUsize : ℕ
  sizeOfStoredMessage : ℕ
  sizeOfSnapshot : ℕ
  capacity : Str → ℕ
  dataCapacity : List UInt8 → ℕ
  /-- The quoted form of a text. -/
  debug : Str → Str
  /-- The RFC 3339 form of an instant, where it has one. -/
  rfc3339 : LogicalInstant → Option Str

/-- A topic. -/
structure TopicEntry where
  name : TopicName
  incarnation : ℕ

/-- The acknowledgement state of a subscription at some time, together with everything published to
its topic since. -/
structure Snapshot where
  name : Str
  ownerProject : Str
  topic : TopicName
  topicIncarnation : ℕ
  createdAt : LogicalInstant
  expireAt : LogicalInstant
  labels : SortedMap Str Str
  unacknowledgedMessageIds : SortedSet Str
  retainedMessageIds : SortedSet Str
  capturedMessages : List StoredMessage

/-- The topic of a snapshot, which a topic of the same name created later is not. -/
def Snapshot.topicKey (snapshot : Snapshot) : Str ×ₗ ℕ :=
  toLex (snapshot.topic.toFull, snapshot.topicIncarnation)

/-- The state of the broker. -/
structure PubSubState where
  seed : BitVec 64
  policyIncarnation : ℕ
  topics : SortedMap Str TopicEntry
  subscriptions : SortedMap Str SubscriptionState
  topicSubs : SortedMap Str (SortedSet Str)
  functionSubscriptions : SortedSet Str
  snapshots : SortedMap Str Snapshot
  topicSnapshots : GroupedIndex (Str ×ₗ ℕ) Str
  snapshotMessageRefs : SortedMap Str ℕ
  topicCounter : ℕ
  messageCounter : ℕ
  ackRng : SplitMix64
  snapshotCounter : ℕ
  snapshotRetainedBytes : ℕ
  pushMinimumRedeliveryInterval : LogicalDuration
  /-- The allocation the next stored message gets. -/
  nextAddress : ℕ

/-- The result of an operation and the state it leaves. -/
abbrev Outcome (α : Type) := Except PubSubError α × PubSubState

namespace PubSubError

def notFound (message : String) : PubSubError := ⟨.notFound, message⟩
def alreadyExists (message : String) : PubSubError := ⟨.alreadyExists, message⟩
def invalidArgument (message : String) : PubSubError := ⟨.invalidArgument, message⟩
def failedPrecondition (message : String) : PubSubError := ⟨.failedPrecondition, message⟩
def resourceExhausted (message : String) : PubSubError := ⟨.resourceExhausted, message⟩

end PubSubError

open PubSubError

/-- The tag of the generator of ack ids. -/
def ackTag : BitVec 64 := 0x5053554241434b5f#64

namespace PubSubState

/-- An empty broker. -/
def new (seed : BitVec 64) : PubSubState where
  seed
  policyIncarnation := 0
  topics := SortedMap.empty
  subscriptions := SortedMap.empty
  topicSubs := SortedMap.empty
  functionSubscriptions := SortedMap.empty
  snapshots := SortedMap.empty
  topicSnapshots := SortedMap.empty
  snapshotMessageRefs := SortedMap.empty
  topicCounter := 0
  messageCounter := 0
  ackRng := ⟨seed ^^^ ackTag⟩
  snapshotCounter := 0
  snapshotRetainedBytes := 0
  pushMinimumRedeliveryInterval := 0
  nextAddress := 0

/-- Changes one subscription. -/
def updateSub (s : PubSubState) (key : Str) (f : SubscriptionState → SubscriptionState) : PubSubState :=
  { s with subscriptions := s.subscriptions.modify key f }

/-- Gives a resource its access policy. -/
def createResourcePolicy (s : PubSubState) : Outcome Unit :=
  if s.policyIncarnation + 1 ≤ maxPolicyIncarnation then
    (.ok (), { s with policyIncarnation := s.policyIncarnation + 1 })
  else (.error (resourceExhausted "resource policy incarnation space exhausted"), s)

/-- Sets the minimum interval between two push deliveries of a message. -/
def setPushMinimumRedeliveryInterval (s : PubSubState) (interval : LogicalDuration) : PubSubState :=
  let interval := max interval 0
  { s with
    pushMinimumRedeliveryInterval := interval
    subscriptions := s.subscriptions.mapValues fun _ sub =>
      { sub with pushMinimumRedeliveryInterval := interval } }

/-! ### Topics -/

/-- Creates a topic; `checked` is the check of its retention. -/
def createTopic (s : PubSubState) (name : TopicName) (checked : Except PubSubError Unit) : Outcome Unit :=
  match checked with
  | .error e => (.error e, s)
  | .ok () =>
      let key := name.toFull
      let text := String.ofList key
      if s.topics.contains key then (.error (alreadyExists s!"topic {text} already exists"), s)
      else if maxTopics ≤ s.topics.size then
        (.error (resourceExhausted s!"the maximum of {maxTopics} topics has been reached"), s)
      else
        match checkedAdd s.topicCounter 1 with
        | none => (.error (resourceExhausted "topic incarnation space exhausted"), s)
        | some topicCounter =>
            match { s with topicCounter }.createResourcePolicy with
            | (.error e, s) => (.error e, s)
            | (.ok (), s) =>
                (.ok (), { s with
                  topicSubs := s.topicSubs.insert key
                    ((s.topicSubs.get key).getD SortedMap.empty)
                  topics := s.topics.insert key ⟨name, topicCounter⟩ })

/-- Deletes a topic; its subscriptions stay and report that it is deleted. -/
def deleteTopic (s : PubSubState) (name : TopicName) : Outcome Unit :=
  let key := name.toFull
  if s.topics.contains key then
    let attached := (s.topicSubs.get key).getD SortedMap.empty
    let s := { s with
      topics := s.topics.erase key
      topicSubs := s.topicSubs.erase key }
    (.ok (), (SortedSet.toList attached).foldl
      (fun s key => s.updateSub key SubscriptionState.markTopicDeleted) s)
  else
    let text := String.ofList key
    (.error (notFound s!"topic {text} not found"), s)

/-! ### Subscriptions -/

/-- The error for a subscription that does not exist. -/
def subscriptionNotFound (key : Str) : PubSubError :=
  let text := String.ofList key
  notFound s!"subscription {text} not found"

/-- The error for a topic that does not exist. -/
def topicNotFound (key : Str) : PubSubError :=
  let text := String.ofList key
  notFound s!"topic {text} not found"

/-- Creates a subscription; `checked` is the check of its configuration. -/
def createSubscription (s : PubSubState) (config : SubscriptionConfig)
    (checked : Except PubSubError Unit) : Outcome Unit :=
  match checked with
  | .error e => (.error e, s)
  | .ok () =>
      let key := config.name.toFull
      let topicKey := config.topic.toFull
      let text := String.ofList key
      let missing := config.deadLetterPolicy.bind fun policy =>
        let topic := policy.deadLetterTopic.toFull
        if s.topics.contains topic then none else some (String.ofList topic)
      if s.subscriptions.contains key then
        (.error (alreadyExists s!"subscription {text} already exists"), s)
      else if !config.topic.isDeletedSentinel && !s.topics.contains topicKey then
        (.error (topicNotFound topicKey), s)
      else
        match missing with
        | some topic => (.error (notFound s!"dead-letter topic {topic} not found"), s)
        | none =>
            if maxSubscriptions ≤ s.subscriptions.size then
              (.error (resourceExhausted
                s!"the maximum of {maxSubscriptions} subscriptions has been reached"), s)
            else
              let attached := (s.topicSubs.get topicKey).getD SortedMap.empty
              let s := { s with
                topicSubs := s.topicSubs.insert topicKey (SortedSet.add attached key) }
              match s.createResourcePolicy with
              | (.error e, s) => (.error e, s)
              | (.ok (), s) =>
                  let sub := { SubscriptionState.new config with
                    pushMinimumRedeliveryInterval := s.pushMinimumRedeliveryInterval }
                  (.ok (), { s with subscriptions := s.subscriptions.insert key sub })

/-- Marks a subscription whose messages the Functions bridge delivers. -/
def markFunctionSubscription (s : PubSubState) (name : SubscriptionName) : Outcome Unit :=
  let key := name.toFull
  if s.subscriptions.contains key then
    (.ok (), { s with functionSubscriptions := SortedSet.add s.functionSubscriptions key })
  else (.error (subscriptionNotFound key), s)

/-- Deletes a subscription. -/
def deleteSubscription (s : PubSubState) (name : SubscriptionName) : Outcome Unit :=
  let key := name.toFull
  match s.subscriptions.get key with
  | none => (.error (subscriptionNotFound key), s)
  | some sub =>
      (.ok (), { s with
        subscriptions := s.subscriptions.erase key
        functionSubscriptions := s.functionSubscriptions.erase key
        topicSubs := s.topicSubs.modify sub.config.topic.toFull
          fun attached => attached.erase key })

/-- An operation on an existing subscription. -/
def onSub {α : Type} (s : PubSubState) (name : SubscriptionName)
    (f : SubscriptionState → Except PubSubError α × SubscriptionState) : Outcome α :=
  match s.subscriptions.get name.toFull with
  | none => (.error (subscriptionNotFound name.toFull), s)
  | some sub =>
      let (result, sub) := f sub
      (result, { s with subscriptions := s.subscriptions.insert name.toFull sub })

/-- Updates the ack deadline of a subscription. -/
def updateAckDeadline (s : PubSubState) (name : SubscriptionName) (seconds : ℕ) : Outcome Unit :=
  s.onSub name fun sub =>
    if 10 ≤ seconds ∧ seconds ≤ 600 then
      (.ok (), sub.replaceConfig { sub.config with ackDeadlineSeconds := seconds })
    else (.error (invalidArgument "ackDeadlineSeconds must be 10..=600"), sub)

/-- Replaces the push endpoint of a subscription. -/
def updatePushConfig (s : PubSubState) (name : SubscriptionName) (pushEndpoint : Str) : Outcome Unit :=
  s.onSub name fun sub => (.ok (), sub.replaceConfig { sub.config with pushEndpoint })

/-- The mutable fields of a subscription; a field that is absent stays. -/
structure SubscriptionUpdate where
  ackDeadlineSeconds : Option ℕ
  retryPolicy : Option (Option RetryPolicy)
  deadLetterPolicy : Option (Option DeadLetterPolicy)
  pushEndpoint : Option Str

/-- The configuration an update asks for. -/
def SubscriptionUpdate.candidate (update : SubscriptionUpdate) (config : SubscriptionConfig) :
    SubscriptionConfig :=
  { config with
    ackDeadlineSeconds := update.ackDeadlineSeconds.getD config.ackDeadlineSeconds
    retryPolicy := update.retryPolicy.getD config.retryPolicy
    deadLetterPolicy := update.deadLetterPolicy.getD config.deadLetterPolicy
    pushEndpoint := update.pushEndpoint.getD config.pushEndpoint }

/-- Applies an update; `check` is the check of a configuration. -/
def updateSubscriptionConfiguration (s : PubSubState) (name : SubscriptionName) (update : SubscriptionUpdate)
    (check : SubscriptionConfig → Except PubSubError Unit) : Outcome Unit :=
  s.onSub name fun sub =>
    let candidate := update.candidate sub.config
    match check candidate with
    | .error e => (.error e, sub)
    | .ok () => (.ok (), sub.replaceConfig candidate)

/-! ### Snapshots -/

/-- Checks the name of a project. -/
def validateProject (project : Str) : Except PubSubError Unit :=
  if project.isEmpty then .error (invalidArgument "project id is empty")
  else if 255 < project.utf8Len then .error (invalidArgument "project id exceeds 255 bytes")
  else if project.contains '/' then .error (invalidArgument "project id must not contain '/'")
  else
    match project.findOffset Str.isControl with
    | some offset =>
        .error (invalidArgument s!"project id has a control character at byte {offset}")
    | none => .ok ()

/-- A character of a resource id. -/
def isIdChar (c : Char) : Bool := c.isAlphanum || ['.', '_', '~', '%', '+', '-'].contains c

/-- Checks the id of a resource of some kind. -/
def validateResourceId (id : Str) (kind : String) : Except PubSubError Unit :=
  if id.utf8Len < 3 ∨ 255 < id.utf8Len then
    .error (invalidArgument s!"{kind} id must be 3..=255 characters")
  else if !(id.head?.any Char.isAlpha) then
    .error (invalidArgument s!"{kind} id must start with a letter")
  else
    match id.findOffset fun c => !isIdChar c with
    | some offset =>
        .error (invalidArgument
          s!"{kind} id has an invalid character at byte {offset}; allowed: letters, digits and . _ ~ % + -")
    | none =>
        if "goog".toList.isPrefixOf id then
          .error (invalidArgument s!"{kind} id must not start with the reserved prefix 'goog'")
        else .ok ()

/-- The text before and after the first occurrence of a separator. -/
def splitOnce (separator : Str) : Str → Option (Str × Str)
  | [] => if separator.isEmpty then some ([], []) else none
  | c :: s =>
      if separator.isPrefixOf (c :: s) then some ([], (c :: s).drop separator.length)
      else (splitOnce separator s).map fun (before, after) => (c :: before, after)

/-- The project and the id of a snapshot name. -/
def parseSnapshotName (name : Str) : Except PubSubError (Str × Str) :=
  let malformed := invalidArgument "snapshot name must be projects/\x7bp\x7d/snapshots/\x7bs\x7d"
  if "projects/".toList.isPrefixOf name then
    match splitOnce "/snapshots/".toList (name.drop 9) with
    | none => .error malformed
    | some (project, snapshot) => do
        validateProject project
        validateResourceId snapshot "snapshot"
        return (project, snapshot)
  else .error malformed

section Bytes

variable (platform : Platform)

/-- The charge for a text of its own. -/
def ownedStringBytes (value : Str) : ℕ :=
  saturatingAdd (saturatingAdd platform.sizeOfString (platform.capacity value)) 64

/-- The charge for texts by key. -/
def ownedMapBytes (m : SortedMap Str Str) : ℕ :=
  SortedMap.sum m fun key value =>
    saturatingAdd (ownedStringBytes platform key) (ownedStringBytes platform value)

/-- The charge for a message in one snapshot. -/
def snapshotReferenceBytes (messageId : Str) (unacknowledged : Bool) : ℕ :=
  saturatingAdd
    (saturatingAdd (saturatingMul platform.sizeOfArc 2) (ownedStringBytes platform messageId))
    (if unacknowledged then ownedStringBytes platform messageId else 0)

/-- The charge for a message that any number of snapshots share. -/
def snapshotSharedMessageBytes (message : StoredMessage) : ℕ :=
  [saturatingMul platform.sizeOfUsize 2, platform.dataCapacity message.message.data,
    platform.capacity message.message.orderingKey, ownedMapBytes platform message.message.attributes,
    ownedStringBytes platform message.messageId].foldl saturatingAdd platform.sizeOfStoredMessage

/-- The charge for a snapshot without its messages. -/
def snapshotOwnedBytes (snapshot : Snapshot) : ℕ :=
  let references := (snapshot.capturedMessages.map fun message =>
    snapshotReferenceBytes platform message.messageId
      (decide (message.messageId ∈ snapshot.unacknowledgedMessageIds))).sum
  [256, ownedStringBytes platform snapshot.name, ownedStringBytes platform snapshot.ownerProject,
    snapshot.topic.toFull.utf8Len, references, ownedMapBytes platform snapshot.labels].foldl
      saturatingAdd platform.sizeOfSnapshot

/-- Drops one reference to a message, and its charge with the last one. -/
def releaseMessage (s : PubSubState) (message : StoredMessage) : PubSubState :=
  match s.snapshotMessageRefs.get message.messageId with
  | none => s
  | some refs =>
      if refs - 1 = 0 then
        { s with
          snapshotMessageRefs := s.snapshotMessageRefs.erase message.messageId
          snapshotRetainedBytes :=
            s.snapshotRetainedBytes - snapshotSharedMessageBytes platform message }
      else
        { s with
          snapshotMessageRefs := s.snapshotMessageRefs.insert message.messageId (refs - 1) }

/-- Removes a snapshot. -/
def removeSnapshot (s : PubSubState) (name : Str) : PubSubState :=
  match s.snapshots.get name with
  | none => s
  | some snapshot =>
      let s := { s with
        snapshots := s.snapshots.erase name
        topicSnapshots := GroupedIndex.removeFrom s.topicSnapshots snapshot.topicKey name
        snapshotRetainedBytes := s.snapshotRetainedBytes - snapshotOwnedBytes platform snapshot }
      snapshot.capturedMessages.foldl (releaseMessage platform) s

/-- Removes the snapshots that have expired. -/
def removeExpiredSnapshots (s : PubSubState) (now : LogicalInstant) : PubSubState :=
  let expired := s.snapshots.entries.filter fun (_, snapshot) => snapshot.expireAt ≤ now
  (expired.map fun (_, snapshot) => snapshot.name).foldl (removeSnapshot platform) s

/-- How long a snapshot lives. -/
def snapshotLifetime (oldestUnacknowledged : Option LogicalInstant) (now : LogicalInstant) :
    Except PubSubError LogicalDuration :=
  let age := ((oldestUnacknowledged.map fun publishedAt => now - publishedAt).filter fun age =>
    0 < age ∧ age ≤ i128Max).getD 0
  let lifetime := LogicalDuration.fromSeconds snapshotTtlSeconds - age
  if lifetime < LogicalDuration.fromSeconds minSnapshotTtlSeconds then
    .error (failedPrecondition "snapshot lifetime must be at least 3600 seconds")
  else .ok lifetime

/-- The text of the snapshot a counter names. -/
def numberedSnapshotName (project : Str) (counter : ℕ) : Str :=
  "projects/".toList ++ project ++ "/snapshots/snapshot-".toList ++ decimal counter

/-- The first counter after a given one whose name is free; of as many counters as there are
snapshots, and one more, one is free. -/
def freeCounter (s : PubSubState) (project : Str) : ℕ → ℕ → Option ℕ
  | 0, _ => none
  | attempts + 1, counter =>
      match checkedAdd counter 1 with
      | none => none
      | some counter =>
          if s.snapshots.contains (numberedSnapshotName project counter) then
            s.freeCounter project attempts counter
          else some counter

/-- The name of a new snapshot, and the counter it used up. -/
def availableSnapshotName (s : PubSubState) (requestedName : Str)
    (subscription : SubscriptionName) : Except PubSubError (Str × Option ℕ) :=
  if requestedName.isEmpty then
    match s.freeCounter subscription.project (s.snapshots.size + 1) s.snapshotCounter with
    | none => .error (resourceExhausted "snapshot identifier space exhausted")
    | some counter => .ok (numberedSnapshotName subscription.project counter, some counter)
  else .ok (requestedName, none)

/-- The charge of the messages that no snapshot has yet. -/
def newSharedBytes (s : PubSubState) (messages : List StoredMessage) (total : ℕ) : Except PubSubError ℕ :=
  messages.foldlM
    (fun total message =>
      if s.snapshotMessageRefs.contains message.messageId then .ok total
      else
        match checkedAdd total (snapshotSharedMessageBytes platform message) with
        | none => .error (resourceExhausted "snapshot byte count overflow")
        | some total => .ok total)
    total

/-- The charge of a new snapshot. -/
def additionalSnapshotBytes (s : PubSubState) (snapshot : Snapshot) : Except PubSubError ℕ :=
  s.newSharedBytes platform snapshot.capturedMessages (snapshotOwnedBytes platform snapshot)

/-- The error for too many snapshot bytes. -/
def snapshotBytesExhausted : PubSubError :=
  resourceExhausted s!"snapshots retain at most {maxSnapshotRetainedBytes} bytes"

/-- Adds references to a message. -/
def addRefs (count : ℕ) (refs : SortedMap Str ℕ) (message : StoredMessage) : SortedMap Str ℕ :=
  refs.insert message.messageId
    (saturatingAdd ((refs.get message.messageId).getD 0) count)

/-- The snapshot of a subscription as it is now. -/
def capture (sub : SubscriptionState) (name project : Str) (topicIncarnation : ℕ)
    (labels : SortedMap Str Str) (now lifetime : ℤ) : Snapshot where
  name
  ownerProject := project
  topic := sub.config.topic
  topicIncarnation
  createdAt := now
  expireAt := (LogicalInstant.checkedAdd now lifetime).getD LogicalInstant.max
  labels
  unacknowledgedMessageIds := sub.unacknowledgedMessageIds
  retainedMessageIds := sub.retainedMessageIds
  capturedMessages := sub.retainedMessages

/-- Everything that is checked before a snapshot is created: the snapshot, its charge and the
counter its name used up. -/
def snapshotAdmission (s : PubSubState) (requestedName : Str) (subscription : SubscriptionName)
    (labels : SortedMap Str Str) (now : LogicalInstant) :
    Except PubSubError (Snapshot × ℕ × Option ℕ) := do
  match s.subscriptions.get subscription.toFull with
  | none => throw (subscriptionNotFound subscription.toFull)
  | some sub =>
      let topic := sub.config.topic
      match if topic.isDeletedSentinel then none else s.topics.get topic.toFull with
      | none => throw (topicNotFound topic.toFull)
      | some entry =>
          let (name, counter) ← s.availableSnapshotName requestedName subscription
          let (project, _) ← parseSnapshotName name
          if project ≠ subscription.project then
            throw (invalidArgument "snapshot and subscription must belong to the same project")
          let text := String.ofList name
          if s.snapshots.contains name then
            throw (alreadyExists s!"snapshot {text} already exists")
          if maxSnapshots ≤ s.snapshots.size then
            throw (resourceExhausted s!"the maximum of {maxSnapshots} snapshots has been reached")
          let lifetime ← snapshotLifetime sub.oldestUnacknowledgedPublishTime now
          let snapshot := capture sub name project entry.incarnation labels now lifetime
          let bytes ← s.additionalSnapshotBytes platform snapshot
          match checkedAdd s.snapshotRetainedBytes bytes with
          | none => throw snapshotBytesExhausted
          | some total =>
              if maxSnapshotRetainedBytes < total then throw snapshotBytesExhausted
              return (snapshot, bytes, counter)

/-- Creates a snapshot of a subscription. -/
def createSnapshot (s : PubSubState) (requestedName : Str) (subscription : SubscriptionName)
    (labels : SortedMap Str Str) (now : LogicalInstant) : Outcome Snapshot :=
  let s := s.removeExpiredSnapshots platform now
  match s.snapshotAdmission platform requestedName subscription labels now with
  | .error e => (.error e, s)
  | .ok (snapshot, bytes, counter) =>
      (.ok snapshot, { s with
        snapshotRetainedBytes := s.snapshotRetainedBytes + bytes
        snapshotMessageRefs := snapshot.capturedMessages.foldl (addRefs 1) s.snapshotMessageRefs
        snapshotCounter := counter.getD s.snapshotCounter
        topicSnapshots := GroupedIndex.addTo s.topicSnapshots snapshot.topicKey snapshot.name
        snapshots := s.snapshots.insert snapshot.name snapshot })

/-- The error for a snapshot that does not exist. -/
def snapshotNotFound (name : Str) : PubSubError :=
  let text := String.ofList name
  notFound s!"snapshot {text} not found"

/-- Gets a snapshot that has not expired. -/
def getSnapshot (s : PubSubState) (name : Str) (now : LogicalInstant) : Outcome Snapshot :=
  match parseSnapshotName name with
  | .error e => (.error e, s)
  | .ok _ =>
      let s := s.removeExpiredSnapshots platform now
      match s.snapshots.get name with
      | none => (.error (snapshotNotFound name), s)
      | some snapshot => (.ok snapshot, s)

/-- Replaces the labels of a snapshot. -/
def updateSnapshot (s : PubSubState) (name : Str) (labels : SortedMap Str Str)
    (now : LogicalInstant) : Outcome Snapshot :=
  match s.getSnapshot platform name now with
  | (.error e, s) => (.error e, s)
  | (.ok snapshot, s) =>
      let updated := { snapshot with labels }
      match checkedAdd (s.snapshotRetainedBytes - snapshotOwnedBytes platform snapshot)
        (snapshotOwnedBytes platform updated) with
      | none => (.error (resourceExhausted "snapshot byte accounting overflow"), s)
      | some total =>
          if maxSnapshotRetainedBytes < total then (.error snapshotBytesExhausted, s)
          else
            (.ok updated, { s with
              snapshotRetainedBytes := total
              snapshots := s.snapshots.insert name updated })

/-- Deletes a snapshot. -/
def deleteSnapshot (s : PubSubState) (name : Str) (now : LogicalInstant) : Outcome Unit :=
  match s.getSnapshot platform name now with
  | (.error e, s) => (.error e, s)
  | (.ok _, s) => (.ok (), s.removeSnapshot platform name)

/-- Seeks a subscription to the acknowledgement state a snapshot captured. -/
def seekToSnapshot (s : PubSubState) (subscription : SubscriptionName) (snapshotName : Str)
    (now : LogicalInstant) : Outcome Unit :=
  match s.getSnapshot platform snapshotName now with
  | (.error e, s) => (.error e, s)
  | (.ok snapshot, s) =>
      match s.subscriptions.get subscription.toFull with
      | none => (.error (subscriptionNotFound subscription.toFull), s)
      | some sub =>
          let topic := sub.config.topic
          let incarnation := (s.topics.get topic.toFull).map TopicEntry.incarnation
          if topic ≠ snapshot.topic ∨ incarnation ≠ some snapshot.topicIncarnation then
            let own := String.ofList topic.toFull
            let other := String.ofList snapshot.topic.toFull
            (.error (failedPrecondition
              s!"The subscription's topic ({own}) is different from that of the snapshot ({other}); they must match in order for Seek work. Note that if a topic is deleted and then re-created with the same name, it is considered a distinct topic for these purposes."), s)
          else
            s.onSub subscription fun sub =>
              sub.seekToSnapshot snapshot.capturedMessages snapshot.retainedMessageIds
                snapshot.unacknowledgedMessageIds snapshot.createdAt now

/-! ### Resets -/

/-- Drops every topic, subscription and snapshot. -/
def clear (s : PubSubState) : PubSubState :=
  { new s.seed with
    policyIncarnation := s.policyIncarnation
    topicCounter := s.topicCounter
    pushMinimumRedeliveryInterval := s.pushMinimumRedeliveryInterval
    nextAddress := s.nextAddress }

/-- Drops the topics, subscriptions and snapshots of one project. -/
def clearProject (s : PubSubState) (project : Str) : PubSubState :=
  let subscriptions := (s.subscriptions.entries.map fun (_, sub) => sub.config.name).filter
    fun name => name.project = project
  let s := subscriptions.foldl (fun s name => (s.deleteSubscription name).2) s
  let topics := (s.topics.entries.map fun (_, entry) => entry.name).filter
    fun name => name.project = project
  let s := topics.foldl (fun s name => (s.deleteTopic name).2) s
  let snapshots := (s.snapshots.entries.filter fun (_, snapshot) => snapshot.ownerProject = project).map
    fun (_, snapshot) => snapshot.name
  snapshots.foldl (removeSnapshot platform) s

/-- Drops everything that belongs to the projects a test accepts. -/
def clearProjectsWhere (s : PubSubState) (accepted : Str → Bool) : PubSubState :=
  let projects := (s.topics.entries.map fun (_, entry) => entry.name.project) ++
    (s.subscriptions.entries.map fun (_, sub) => sub.config.name.project) ++
    s.snapshots.entries.map fun (_, snapshot) => snapshot.ownerProject
  let projects : SortedSet Str := projects.foldl SortedSet.add SortedMap.empty
  ((SortedSet.toList projects).filter accepted).foldl (clearProject platform) s

end Bytes

end PubSubState

end Fireemu.PubSub
