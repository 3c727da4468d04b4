import Fireemu.PubSub.State

/-!
# The broker: publication and delivery

A publication has two phases.  `preparePublish` checks it against every subscription and snapshot it
reaches and gives its messages their ids; `commitPrepared` checks everything again and makes the
messages visible.  Where the source would panic the model has no outcome.
-/

namespace Fireemu.PubSub

open Library (GroupedIndex SortedMap SortedSet)
open PubSubError

/-! ### Messages -/

section Validate

variable (platform : Platform)

/-- Checks one attribute. -/
def validateAttribute (key value : Str) : Except PubSubError Unit :=
  let text := String.ofList key
  let quoted := String.ofList (platform.debug key)
  if key.isEmpty then
    .error (invalidArgument s!"The request contains an attribute key that is not valid (key={text}). Attribute keys must be non-empty and must not begin with 'goog' (case-insensitive).")
  else if 256 < key.utf8Len then
    .error (invalidArgument s!"The attribute {quoted} in the request has a key that is too large. The size is {key.utf8Len} bytes, but the maximum allowed is 256. Refer to https://cloud.google.com/pubsub/quotas for more information.")
  else if 1024 < value.utf8Len then
    .error (invalidArgument s!"The attribute {quoted} in the request has a value that is too large. The size is {value.utf8Len} bytes, but the maximum allowed is 1024. Refer to https://cloud.google.com/pubsub/quotas for more information.")
  else if "goog".toList.isPrefixOf key then
    .error (invalidArgument s!"The request contains an attribute key that is not valid (key={text}). Attribute keys must be non-empty and must not begin with 'goog' (case-insensitive).")
  else if key.contains (Char.ofNat 0) then
    .error (invalidArgument s!"attribute key {quoted} contains a NUL byte")
  else if value.contains (Char.ofNat 0) then
    .error (invalidArgument s!"attribute value for {quoted} contains a NUL byte")
  else .ok ()

/-- Checks an ordering key. -/
def validateOrderingKey (key : Str) : Except PubSubError Unit :=
  if 1024 < key.utf8Len then
    .error (invalidArgument s!"An ordering key in the request is too long. The length is {key.utf8Len} characters, but the maximum allowed is 1024. Refer to https://cloud.google.com/pubsub/quotas for more information.")
  else if key.contains (Char.ofNat 0) then
    .error (invalidArgument "ordering key contains a NUL byte")
  else .ok ()

/-- Checks a message. -/
def PubsubMessage.validate (m : PubsubMessage) : Except PubSubError Unit := do
  let attributes := m.attributes.size
  if m.data.isEmpty && attributes = 0 then
    throw (invalidArgument "One or more messages in the publish request is empty. Each message must contain either non-empty data, or at least one attribute.")
  if 10000000 < m.data.length then
    throw (invalidArgument "message data exceeds 10000000 bytes")
  if 100 < attributes then
    throw (invalidArgument s!"There are too many attributes in the request. The request contains {attributes} attributes, but the maximum allowed is 100. Refer to https://cloud.google.com/pubsub/quotas for more information.")
  let total ← m.attributes.entries.foldlM
    (fun total (key, value) => do
      validateAttribute platform key value
      return saturatingAdd (saturatingAdd total key.utf8Len) value.utf8Len)
    m.data.length
  if 10000000 < total then
    throw (invalidArgument "message total size exceeds 10000000 bytes")
  validateOrderingKey m.orderingKey

end Validate

/-- A message exhausted on one subscription that waits for its transfer to a topic. -/
structure DeadLetterForward where
  sourceSubscription : SubscriptionName
  deadLetterTopic : TopicName
  message : StoredMessage

/-- What a pull returns. -/
structure PullResult where
  received : List ReceivedMessage
  deadLettered : List DeadLetterForward

/-- An admitted publication that is not visible yet. -/
structure PreparedPublication where
  topicKey : Str
  topicIncarnation : ℕ
  initialMessageCounter : ℕ
  nextMessageCounter : ℕ
  published : List StoredMessage
  subscriptionKeys : List Str
  snapshotNames : List Str
  snapshotTotalBytes : ℕ

/-- The time from which a publication can be delivered. -/
def PreparedPublication.publishTime (prepared : PreparedPublication) (now : LogicalInstant) :
    LogicalInstant :=
  (prepared.published.head?.map StoredMessage.publishTime).getD now

namespace PubSubState

variable (platform : Platform)

/-! ### Publication -/

/-- The subscriptions attached to a topic. -/
def topicSubscriptions (s : PubSubState) (topicKey : Str) : List Str :=
  ((s.topicSubs.get topicKey).map SortedSet.toList).getD []

/-- Whether a subscription can take the messages its filter admits. -/
def subscriptionAdmission (s : PubSubState) (published : List StoredMessage) (key : Str) :
    Except PubSubError Unit :=
  if key ∈ s.functionSubscriptions then .ok ()
  else
    match s.subscriptions.get key with
    | none => .ok ()
    | some sub => sub.ensureEnqueueCapacity (published.filter sub.admits)

/-- The snapshots of a topic. -/
def snapshotsOf (s : PubSubState) (topicKey : Str) (topicIncarnation : ℕ) : List Str :=
  SortedSet.toList (GroupedIndex.group s.topicSnapshots (toLex (topicKey, topicIncarnation)))

/-- The bytes that all snapshots retain once some of them are extended by a publication. -/
def snapshotPublishBytes (s : PubSubState) (snapshotNames : List Str)
    (published : List StoredMessage) : Except PubSubError ℕ := do
  let overflow := resourceExhausted "snapshot byte count overflow"
  let perSnapshotBytes ← published.foldlM
    (fun total stored =>
      match checkedAdd total (snapshotReferenceBytes platform stored.messageId true) with
      | none => .error overflow
      | some total => .ok total)
    0
  if u64Max < perSnapshotBytes * snapshotNames.length then throw overflow
  let referenceBytes := perSnapshotBytes * snapshotNames.length
  let sharedBytes ← if snapshotNames.isEmpty then pure 0 else s.newSharedBytes platform published 0
  match (checkedAdd s.snapshotRetainedBytes referenceBytes).bind fun total =>
      checkedAdd total sharedBytes with
  | none => throw snapshotBytesExhausted
  | some total =>
      if maxSnapshotRetainedBytes < total then throw snapshotBytesExhausted
      return total

/-- The snapshots a publication extends, and the bytes they retain then. -/
def snapshotPublishAdmission (s : PubSubState) (topicKey : Str) (topicIncarnation : ℕ)
    (published : List StoredMessage) : Except PubSubError (List Str × ℕ) := do
  let snapshotNames := s.snapshotsOf topicKey topicIncarnation
  let total ← s.snapshotPublishBytes platform snapshotNames published
  return (snapshotNames, total)

/-- Checks a publication against everything it reaches. -/
def publishAdmission (s : PubSubState) (topicKey : Str) (topicIncarnation : ℕ)
    (published : List StoredMessage) : Except PubSubError (List Str × List Str × ℕ) := do
  let subscriptionKeys := s.topicSubscriptions topicKey
  subscriptionKeys.forM (s.subscriptionAdmission published)
  let (snapshotNames, total) ←
    s.snapshotPublishAdmission platform topicKey topicIncarnation published
  return (subscriptionKeys, snapshotNames, total)

/-- Gives messages their ids, from the broker's counter where the caller chose none, and their
allocations. -/
def number (now : LogicalInstant) (address : ℕ) :
    List (PubsubMessage × Option Str) → ℕ → Except PubSubError (List StoredMessage × ℕ)
  | [], counter => .ok ([], counter)
  | (message, some messageId) :: messages, counter => do
      let (published, next) ← number now (address + 1) messages counter
      return (⟨address, messageId, now, message⟩ :: published, next)
  | (message, none) :: messages, counter => do
      if MessageId.brokerSpan < counter + 1 then
        throw (resourceExhausted "Pub/Sub message identifier space exhausted")
      let (published, next) ← number now (address + 1) messages (counter + 1)
      return (⟨address, pubsubMessageId (counter + 1), now, message⟩ :: published, next)

/-- Prepares a publication. -/
def preparePublishNumbered (s : PubSubState) (topic : TopicName)
    (messages : List (PubsubMessage × Option Str)) (now : LogicalInstant) : Outcome PreparedPublication :=
  let topicKey := topic.toFull
  match s.topics.get topicKey with
  | none => (.error (topicNotFound topicKey), s)
  | some entry =>
      if maxMessagesPerPublish < messages.length then
        (.error (invalidArgument
          s!"a publish request carries at most {maxMessagesPerPublish} messages"), s)
      else
        match messages.forM fun (message, _) => message.validate platform with
        | .error e => (.error e, s)
        | .ok () =>
            let s := s.removeExpiredSnapshots platform now
            match number now s.nextAddress messages s.messageCounter with
            | .error e => (.error e, s)
            | .ok (published, next) =>
                let s' := { s with nextAddress := s.nextAddress + messages.length }
                match s.publishAdmission platform topicKey entry.incarnation published with
                | .error e => (.error e, s')
                | .ok (subscriptionKeys, snapshotNames, total) =>
                    (.ok ⟨topicKey, entry.incarnation, s.messageCounter, next, published,
                      subscriptionKeys, snapshotNames, total⟩, s')

/-- Prepares a publication whose messages the broker numbers. -/
def preparePublish (s : PubSubState) (topic : TopicName) (messages : List PubsubMessage)
    (now : LogicalInstant) : Outcome PreparedPublication :=
  s.preparePublishNumbered platform topic (messages.map fun message => (message, none)) now

/-- Prepares a publication whose message ids the caller chose. -/
def preparePublishWithMessageIds (s : PubSubState) (topic : TopicName)
    (messages : List (PubsubMessage × Str)) (now : LogicalInstant) : Outcome PreparedPublication :=
  if messages.all (fun (_, id) => !id.isEmpty) ∧ (messages.map Prod.snd).Nodup then
    s.preparePublishNumbered platform topic (messages.map fun (message, id) => (message, some id)) now
  else
    (.error (invalidArgument
      "a message identifier must be non-empty and unique within one publication"), s)

/-- Appends the messages a filter admits; `none` where the source would panic. -/
def enqueueAll (publishTime : LogicalInstant) (published : List StoredMessage)
    (sub : SubscriptionState) : Option SubscriptionState :=
  published.foldlM
    (fun sub stored =>
      if sub.admits stored then
        match sub.enqueue stored publishTime with
        | (.ok (), sub) => some sub
        | (.error _, _) => none
      else some sub)
    sub

/-- Appends a publication to one subscription. -/
def deliverTo (publishTime : LogicalInstant) (published : List StoredMessage) (s : PubSubState)
    (key : Str) : Option PubSubState :=
  if key ∈ s.functionSubscriptions then some s
  else
    match s.subscriptions.get key with
    | none => some s
    | some sub =>
        (enqueueAll publishTime published sub).map fun sub =>
          { s with subscriptions := s.subscriptions.insert key sub }

/-- A snapshot that also holds a publication. -/
def extendedSnapshot (snapshot : Snapshot) (published : List StoredMessage) : Snapshot :=
  { snapshot with
    unacknowledgedMessageIds := (published.map StoredMessage.messageId).foldl SortedSet.add
      snapshot.unacknowledgedMessageIds
    retainedMessageIds := (published.map StoredMessage.messageId).foldl SortedSet.add
      snapshot.retainedMessageIds
    capturedMessages := snapshot.capturedMessages ++ published }

/-- Extends one snapshot; `none` where the source would panic. -/
def extendSnapshot (published : List StoredMessage) (s : PubSubState) (name : Str) : Option PubSubState :=
  (s.snapshots.get name).map fun snapshot =>
    { s with snapshots := s.snapshots.insert name (extendedSnapshot snapshot published) }

/-- Extends the snapshots of a topic by a publication. -/
def retainSnapshotPublication (s : PubSubState) (snapshotNames : List Str)
    (published : List StoredMessage) : Option PubSubState := do
  let s ← snapshotNames.foldlM (extendSnapshot published) s
  return if snapshotNames.isEmpty then s
    else { s with
      snapshotMessageRefs := published.foldl (addRefs snapshotNames.length) s.snapshotMessageRefs }

/-- What a commit checks before it changes anything. -/
def commitAdmission (s : PubSubState) (prepared : PreparedPublication) : Except PubSubError Unit := do
  match s.topics.get prepared.topicKey with
  | none => throw (topicNotFound prepared.topicKey)
  | some entry =>
      if entry.incarnation ≠ prepared.topicIncarnation ∨
          s.messageCounter ≠ prepared.initialMessageCounter then
        throw (failedPrecondition "the prepared Pub/Sub publication is no longer current")
      let admission ← s.publishAdmission platform prepared.topicKey prepared.topicIncarnation
        prepared.published
      if admission ≠ (prepared.subscriptionKeys, prepared.snapshotNames, prepared.snapshotTotalBytes)
      then
        throw (failedPrecondition "the Pub/Sub publication admission changed before commit")

/-- Makes an admitted publication visible; `none` where the source would panic. -/
def publishPrepared (s : PubSubState) (prepared : PreparedPublication) (now : LogicalInstant) :
    Option PubSubState := do
  let s ← prepared.subscriptionKeys.foldlM
    (deliverTo (prepared.publishTime now) prepared.published) s
  let s ← s.retainSnapshotPublication prepared.snapshotNames prepared.published
  return { s with
    snapshotRetainedBytes := prepared.snapshotTotalBytes
    messageCounter := prepared.nextMessageCounter }

/-- Commits a prepared publication; `none` where the source would panic. -/
def commitPrepared (s : PubSubState) (prepared : PreparedPublication) (now : LogicalInstant) :
    Option (Outcome (List StoredMessage)) :=
  match s.commitAdmission platform prepared with
  | .error e => some (.error e, s)
  | .ok () => (s.publishPrepared prepared now).map fun s => (.ok prepared.published, s)

/-! ### Delivery -/

/-- The ack id a number of draws ahead. -/
def nextAckId (g : SplitMix64) (n : ℕ) : AckId := ackIdOf (g.word n)

/-- Delivers messages of a subscription; `authorized` says whether its dead letters may be
transferred. -/
def pullWithDeadLettersAdmitted (s : PubSubState) (name : SubscriptionName) (max : ℕ)
    (now : LogicalInstant) (batching : OrderedPullBatching) (authorized : Bool)
    (admission : List StoredMessage → Bool) : Outcome PullResult :=
  match s.subscriptions.get name.toFull with
  | none => (.error (subscriptionNotFound name.toFull), s)
  | some sub =>
      let sub := sub.expireDeadlines now
      let authorized := sub.config.deadLetterPolicy.isSome && authorized
      let (outcome, sub) :=
        sub.pullWithAdmission max now authorized batching (nextAckId s.ackRng) admission
      let deadLettered := match sub.config.deadLetterPolicy with
        | none => []
        | some policy =>
            outcome.deadLettered.map fun message => ⟨name, policy.deadLetterTopic, message⟩
      (.ok ⟨outcome.received, deadLettered⟩, { s with
        subscriptions := s.subscriptions.insert name.toFull sub
        ackRng := s.ackRng.advance outcome.received.length })

/-- Acknowledges messages. -/
def acknowledge (s : PubSubState) (name : SubscriptionName) (ackIds : List AckId) : Outcome ℕ :=
  s.onSub name fun sub =>
    let (count, sub) := sub.acknowledge ackIds
    (.ok count, sub)

/-- Reconciles ack ids with the leases of a subscription. -/
def retainOutstandingAckIds (s : PubSubState) (name : SubscriptionName) (ackIds : SortedSet AckId)
    (now : LogicalInstant) : Outcome (SortedSet AckId) :=
  s.onSub name fun sub =>
    let (ackIds, sub) := sub.retainOutstandingAckIds ackIds now
    (.ok ackIds, sub)

/-- Changes the ack deadline of messages. -/
def modifyAckDeadline (s : PubSubState) (name : SubscriptionName) (ackIds : List AckId)
    (seconds : ℕ) (now : LogicalInstant) : Outcome Unit :=
  s.onSub name fun sub =>
    (.ok (), ackIds.foldl (fun sub id => sub.modifyAckDeadline id seconds now) sub)

/-- Seeks a subscription to a time. -/
def seekToTime (s : PubSubState) (name : SubscriptionName) (time now : LogicalInstant) : Outcome Unit :=
  s.onSub name fun sub => sub.seekToTime time now

/-- Expires ack deadlines and snapshots. -/
def expireAll (s : PubSubState) (now : LogicalInstant) : PubSubState :=
  let s := s.removeExpiredSnapshots platform now
  { s with
    subscriptions := s.subscriptions.mapValues fun _ sub => sub.expireDeadlines now }

/-! ### Dead letters -/

/-- Completes the transfer of a message. -/
def completeDeadLetter (s : PubSubState) (name : SubscriptionName) (messageId : Str) : Outcome Bool :=
  s.onSub name fun sub =>
    let (completed, sub) := sub.completeForward messageId
    (.ok completed, sub)

/-- Gives the transfer of a message back. -/
def resumeDeadLetter (s : PubSubState) (forward : DeadLetterForward) (now : LogicalInstant) : PubSubState :=
  s.updateSub forward.sourceSubscription.toFull fun sub => sub.resumeForward forward.message now

/-- Whether a transfer still has its source and its destination. -/
def canCommitDeadLetter (s : PubSubState) (forward : DeadLetterForward) (authorized : Bool) : Bool :=
  authorized && (s.subscriptions.get forward.sourceSubscription.toFull).any fun sub =>
    (sub.config.deadLetterPolicy.any fun policy => policy.deadLetterTopic = forward.deadLetterTopic) &&
      sub.pendingForwards.any fun message => message.address = forward.message.address

/-- The publish time of a message as a transfer renders it. -/
def renderPublishTime (text : Str) : Str :=
  let text := text.dropLast
  let text := if text.contains '.' then
      ((text.reverse.dropWhile (· = '0')).dropWhile (· = '.')).reverse
    else text
  text ++ "+00:00".toList

/-- The message a transfer publishes; with `enforced` authority it says where it comes from. -/
def deadLetterMessage (s : PubSubState) (forward : DeadLetterForward) (enforced : Bool) :
    Except PubSubError PubsubMessage := do
  let message := forward.message.message
  if enforced then
    match (s.subscriptions.get forward.sourceSubscription.toFull).bind fun sub =>
        sub.forwardingAttempt forward.message with
    | none => throw (failedPrecondition "dead-letter source reservation is absent")
    | some attempt =>
        match platform.rfc3339 forward.message.publishTime with
        | none => throw (failedPrecondition "dead-letter publication time is outside RFC3339")
        | some published =>
            return { message with
              attributes := [
                ("CloudPubSubDeadLetterSourceSubscription".toList, forward.sourceSubscription.subscription),
                ("CloudPubSubDeadLetterSourceSubscriptionProject".toList, forward.sourceSubscription.project),
                ("CloudPubSubDeadLetterSourceDeliveryCount".toList, decimal attempt.toNat),
                ("CloudPubSubDeadLetterSourceTopicPublishTime".toList, renderPublishTime published)].foldl
                (fun attributes (key, value) => attributes.insert key value)
                message.attributes }
  else return message

/-- Prepares the publication of a transfer. -/
def prepareDeadLetterPublication (s : PubSubState) (forward : DeadLetterForward)
    (authorized enforced : Bool) (now : LogicalInstant) : Outcome PreparedPublication :=
  if s.canCommitDeadLetter forward authorized then
    match s.deadLetterMessage platform forward enforced with
    | .error e => (.error e, s)
    | .ok message => s.preparePublish platform forward.deadLetterTopic [message] now
  else
    (.error (failedPrecondition "dead-letter forwarding authority is absent"), s.resumeDeadLetter forward now)

/-- Publishes a transfer and then completes it at its source; returns the messages it published.
`none` where the source would panic. -/
def transferDeadLetter (authority : SubscriptionName → TopicName → Bool) (enforced : Bool)
    (now : LogicalInstant) (s : PubSubState) (forward : DeadLetterForward) :
    Option (List StoredMessage × PubSubState) :=
  let authorized := authority forward.sourceSubscription forward.deadLetterTopic
  match s.prepareDeadLetterPublication platform forward authorized enforced now with
  | (.error _, s) => some ([], s)
  | (.ok prepared, s) =>
      (s.commitPrepared platform prepared now).map fun outcome =>
        match outcome with
        | (.error _, s) => ([], s)
        | (.ok published, s) => (published,
            (s.completeDeadLetter forward.sourceSubscription forward.message.messageId).2)

/-- Transfers messages in order; returns the messages published for each. -/
def transferDeadLetters (authority : SubscriptionName → TopicName → Bool) (enforced : Bool)
    (now : LogicalInstant) :
    PubSubState → List DeadLetterForward → Option (List (List StoredMessage) × PubSubState)
  | s, [] => some ([], s)
  | s, forward :: forwards =>
      match s.transferDeadLetter platform authority enforced now forward with
      | none => none
      | some (published, s) =>
          (transferDeadLetters authority enforced now s forwards).map fun (rest, s) =>
            (published :: rest, s)

/-- Whether the transfers of a subscription are authorized. -/
def transferAuthority (s : PubSubState) (authority : SubscriptionName → TopicName → Bool)
    (name : SubscriptionName) : Bool :=
  ((s.subscriptions.get name.toFull).bind fun sub => sub.config.deadLetterPolicy).any
    fun policy => authority name policy.deadLetterTopic

/-- Delivers messages of a subscription, and transfers those it finds exhausted. -/
def pull (s : PubSubState) (name : SubscriptionName) (max : ℕ) (now : LogicalInstant)
    (authority : SubscriptionName → TopicName → Bool) (enforced : Bool) :
    Option (Outcome (List ReceivedMessage)) :=
  match s.pullWithDeadLettersAdmitted name max now .mixed (s.transferAuthority authority name)
      (fun _ => true) with
  | (.error e, s) => some (.error e, s)
  | (.ok outcome, s) =>
      (s.transferDeadLetters platform authority enforced now outcome.deadLettered).map
        fun (_, s) => (.ok outcome.received, s)

end PubSubState

end Fireemu.PubSub
