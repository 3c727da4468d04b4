import Fireemu.PubSub.Message

/-!
# Subscriptions

A subscription owns the log of the messages published to its topic while it existed.  Every entry
is available, outstanding under an ack id, acknowledged, or waiting for its transfer to the
dead-letter topic.  The index of the first entry that is not acknowledged, the entries by ack id and
the retained bytes are kept beside the log.
-/

namespace Fireemu.PubSub

open Library (SortedMap SortedSet)

abbrev AckId := Str

def maxRetainedPerSub : ℕ := 100000
def maxRetainedBytesPerSub : ℕ := 1024 * 1024 * 1024

/-- After so many deliveries a message goes to another topic. -/
structure DeadLetterPolicy where
  deadLetterTopic : TopicName
  maxDeliveryAttempts : ℕ

/-- The backoff before a message is delivered again. -/
structure RetryPolicy where
  minimumBackoff : LogicalDuration
  maximumBackoff : LogicalDuration

/-- Validated subscription configuration. -/
structure SubscriptionConfig where
  name : SubscriptionName
  topic : TopicName
  ackDeadlineSeconds : ℕ
  enableMessageOrdering : Bool
  /-- Which attributes the filter admits. -/
  filter : SortedMap Str Str → Bool
  deadLetterPolicy : Option DeadLetterPolicy
  retryPolicy : Option RetryPolicy
  /-- Empty for a pull subscription. -/
  pushEndpoint : Str

namespace SubscriptionConfig

/-- Whether this is a push subscription. -/
def isPush (c : SubscriptionConfig) : Bool := !c.pushEndpoint.isEmpty

/-- How long a delivery may stay unacknowledged. -/
def ackDeadline (c : SubscriptionConfig) : LogicalDuration :=
  LogicalDuration.fromSeconds c.ackDeadlineSeconds

/-- Doubles a backoff a number of times, up to a maximum. -/
def doubled (maximum : LogicalDuration) : ℕ → LogicalDuration → LogicalDuration
  | 0, backoff => backoff
  | steps + 1, backoff =>
      if backoff ≥ maximum then backoff
      else doubled maximum steps (min (min (backoff * 2) i128Max) maximum)

/-- The delay before a delivery may be repeated. -/
def redeliveryBackoff (c : SubscriptionConfig) (deliveryAttempt : ℕ)
    (pushMinimum : LogicalDuration) : LogicalDuration :=
  match c.retryPolicy with
  | none => if c.isPush then pushMinimum else 0
  | some policy =>
      if policy.minimumBackoff = 0 ∨ policy.maximumBackoff = 0 then 0
      else doubled policy.maximumBackoff (min (deliveryAttempt - 1) 127) policy.minimumBackoff

end SubscriptionConfig

/-- The delivery state of a retained message. -/
inductive Delivery
  | available (availableAt : LogicalInstant)
  | outstanding (ackId : AckId) (deadline : LogicalInstant)
  /-- Kept for seek. -/
  | acked
  /-- Exhausted, and waiting for the dead-letter topic to accept it. -/
  | forwardPending
  deriving DecidableEq

/-- The ack id a message is outstanding under. -/
def Delivery.ackId? : Delivery → Option AckId
  | .outstanding ackId _ => some ackId
  | _ => none

/-- A retained message. -/
structure Entry where
  stored : StoredMessage
  state : Delivery
  /-- How many times the message has been handed to a subscriber, as a 32-bit number. -/
  deliveryAttempt : UInt32

namespace Entry

/-- Whether the message is acknowledged. -/
def isAcked (e : Entry) : Bool := e.state = .acked

/-- Whether the message waits for its transfer. -/
def isForwardPending (e : Entry) : Bool := e.state = .forwardPending

/-- Whether the message can be delivered at an instant. -/
def isDeliverable (now : LogicalInstant) (e : Entry) : Bool :=
  match e.state with
  | .available availableAt => availableAt ≤ now
  | _ => false

/-- Whether the message has used its whole attempt budget. -/
def isExhausted (maxAttempts : Option ℕ) (e : Entry) : Bool :=
  maxAttempts.any fun limit => limit ≤ e.deliveryAttempt.toNat

/-- The ordering key. -/
abbrev key (e : Entry) : Str := e.stored.message.orderingKey

end Entry

/-- A message returned by a pull. -/
structure ReceivedMessage where
  ackId : AckId
  message : StoredMessage
  deliveryAttempt : UInt32

/-- What a pull returns: the messages delivered, and those to be transferred. -/
structure PullOutcome where
  received : List ReceivedMessage
  deadLettered : List StoredMessage

/-- How a pull batches messages with and without an ordering key. -/
inductive OrderedPullBatching
  | mixed
  /-- While an unkeyed message is deliverable, only unkeyed ones are returned. -/
  | separateUnkeyed
  deriving DecidableEq

/-- A subscription: its configuration and its log. -/
structure SubscriptionState where
  config : SubscriptionConfig
  entries : List Entry
  firstUnacked : ℕ
  outstanding : SortedMap AckId ℕ
  retainedBytes : ℕ
  pushMinimumRedeliveryInterval : LogicalDuration

namespace SubscriptionState

/-- A subscription without messages. -/
def new (config : SubscriptionConfig) : SubscriptionState :=
  ⟨config, [], 0, SortedMap.empty, 0, 0⟩

/-- Changes the delivery state of an entry. -/
def setState (s : SubscriptionState) (i : ℕ) (state : Delivery) : SubscriptionState :=
  { s with entries := s.entries.modify i fun e => { e with state } }

/-! ### Derived fields -/

/-- The entries by ack id, from the log. -/
def indexOutstanding (entries : List Entry) : SortedMap AckId ℕ :=
  entries.zipIdx.foldl
    (fun outstanding (e, i) =>
      match e.state with
      | .outstanding ackId _ => outstanding.insert ackId i
      | _ => outstanding)
    SortedMap.empty

/-- Recomputes the derived fields from the log. -/
def rebuildIndexes (s : SubscriptionState) : SubscriptionState :=
  { s with
    firstUnacked := s.entries.findIdx fun e => !e.isAcked
    outstanding := indexOutstanding s.entries
    retainedBytes := (s.entries.map fun e => messageBytes e.stored).sum }

/-- Moves the first unacknowledged index over acknowledged entries. -/
def advanceFirstUnacked (s : SubscriptionState) : SubscriptionState :=
  { s with
    firstUnacked :=
      s.firstUnacked + ((s.entries.drop s.firstUnacked).takeWhile Entry.isAcked).length }

/-- Drops acknowledged entries. -/
def reclaimAckedEntries (s : SubscriptionState) : SubscriptionState :=
  { s with entries := s.entries.filter fun e => !e.isAcked }.rebuildIndexes

/-! ### Publication -/

/-- Whether a number of messages and bytes can be added. -/
def fits (additionalCount additionalBytes count bytes : ℕ) : Bool :=
  ((checkedAdd count additionalCount).any fun total => total ≤ maxRetainedPerSub) &&
    (checkedAdd bytes additionalBytes).any fun total => total ≤ maxRetainedBytesPerSub

/-- Adds a message to the number and the bytes of a batch. -/
def addToBatch (batch : ℕ × ℕ) (message : StoredMessage) : Except PubSubError (ℕ × ℕ) :=
  match checkedAdd batch.1 1 with
  | none => .error ⟨.resourceExhausted, "subscription entry count overflow"⟩
  | some count =>
      match checkedAdd batch.2 (messageBytes message) with
      | none => .error ⟨.resourceExhausted, "subscription byte count overflow"⟩
      | some bytes => .ok (count, bytes)

/-- The number and the bytes of a batch. -/
def batchSize (messages : List StoredMessage) : Except PubSubError (ℕ × ℕ) :=
  messages.foldlM addToBatch (0, 0)

/-- Checks whether a whole batch can be appended. -/
def ensureEnqueueCapacity (s : SubscriptionState) (messages : List StoredMessage) : Except PubSubError Unit :=
  match batchSize messages with
  | .error e => .error e
  | .ok (count, bytes) =>
      let acked := s.entries.filter Entry.isAcked
      let ackedBytes := (acked.map fun e => messageBytes e.stored).foldl saturatingAdd 0
      if fits count bytes s.entries.length s.retainedBytes then .ok ()
      else if fits count bytes (s.entries.length - acked.length) (s.retainedBytes - ackedBytes) then
        .ok ()
      else
        let name := String.ofList s.config.name.toFull
        .error ⟨.resourceExhausted, s!"subscription {name} cannot retain the complete publish batch"⟩

/-- Whether one more message would exceed the byte bound. -/
def exceedsBytes (s : SubscriptionState) (bytes : ℕ) : Bool :=
  (checkedAdd s.retainedBytes bytes).all fun total => maxRetainedBytesPerSub < total

/-- Drops acknowledged entries if one more message would exceed a bound. -/
def makeRoom (s : SubscriptionState) (bytes : ℕ) : SubscriptionState :=
  if (maxRetainedPerSub ≤ s.entries.length || s.exceedsBytes bytes) &&
      s.entries.any Entry.isAcked then
    s.reclaimAckedEntries
  else s

/-- Appends a message the filter has admitted; also when it is refused, acknowledged entries may
have been reclaimed. -/
def enqueue (s : SubscriptionState) (stored : StoredMessage) (now : LogicalInstant) :
    Except PubSubError Unit × SubscriptionState :=
  let bytes := messageBytes stored
  let s := s.makeRoom bytes
  let name := String.ofList s.config.name.toFull
  if maxRetainedPerSub ≤ s.entries.length then
    (.error ⟨.resourceExhausted,
      s!"subscription {name} retains the maximum of {maxRetainedPerSub} messages"⟩, s)
  else if s.exceedsBytes bytes then
    (.error ⟨.resourceExhausted,
      s!"subscription {name} retains the maximum of {maxRetainedBytesPerSub} message bytes"⟩, s)
  else
    (.ok (), { s with
      entries := s.entries ++ [⟨stored, .available now, 0⟩]
      retainedBytes := s.retainedBytes + bytes })

/-- Whether the filter admits a message. -/
def admits (s : SubscriptionState) (stored : StoredMessage) : Bool :=
  s.config.filter stored.message.attributes

/-! ### Delivery -/

/-- Makes the entry of an ack id available again, after the backoff. -/
def release (now : LogicalInstant) (s : SubscriptionState) (ackId : AckId) : SubscriptionState :=
  match s.outstanding.get ackId with
  | none => s
  | some i =>
      let attempt := (s.entries[i]?.map Entry.deliveryAttempt).getD 0
      let backoff := s.config.redeliveryBackoff attempt.toNat s.pushMinimumRedeliveryInterval
      { s with outstanding := s.outstanding.erase ackId }.setState i
        (.available ((LogicalInstant.checkedAdd now backoff).getD now))

/-- Whether the deadline of an entry has passed. -/
def isExpired (now : LogicalInstant) (entries : List Entry) (i : ℕ) : Bool :=
  entries[i]?.any fun e =>
    match e.state with
    | .outstanding _ deadline => deadline ≤ now
    | _ => false

/-- Makes the messages available again whose ack deadline has passed. -/
def expireDeadlines (s : SubscriptionState) (now : LogicalInstant) : SubscriptionState :=
  let expired := (s.outstanding.entries.filter fun (_, i) => isExpired now s.entries i).map Prod.fst
  expired.foldl (release now) s

/-- Retains the ack ids whose lease is still outstanding. -/
def retainOutstandingAckIds (s : SubscriptionState) (ackIds : SortedSet AckId)
    (now : LogicalInstant) : SortedSet AckId × SubscriptionState :=
  let s := s.expireDeadlines now
  (ackIds.filter fun id _ => s.outstanding.contains id, s)

/-- What decides which entries a pull takes. -/
structure PullRules where
  max : ℕ
  now : LogicalInstant
  maxAttempts : Option ℕ
  ordered : Bool
  push : Bool
  unkeyedOnly : Bool

/-- A pull that walks the log: the entries it takes, those it transfers, and the ordering keys it
may not take any more or has taken. -/
structure PullScan where
  selected : List ℕ
  forwarded : List ℕ
  blockedKeys : List Str
  emittedKeys : List Str

namespace PullScan

/-- Nothing taken yet. -/
def empty : PullScan := ⟨[], [], [], []⟩

/-- Blocks the key of an entry. -/
def block (scan : PullScan) (key : Str) : PullScan :=
  { scan with blockedKeys := key :: scan.blockedKeys }

/-- Transfers an entry. -/
def forward (scan : PullScan) (i : ℕ) : PullScan :=
  { scan with forwarded := scan.forwarded ++ [i] }

/-- Takes an entry. -/
def take (scan : PullScan) (i : ℕ) : PullScan :=
  { scan with selected := scan.selected ++ [i] }

/-- Looks at one entry. -/
def step (rules : PullRules) (scan : PullScan) (indexed : Entry × ℕ) : PullScan :=
  let (entry, i) := indexed
  let keyed := rules.ordered && !entry.key.isEmpty
  if rules.max ≤ scan.selected.length then scan
  else if entry.isAcked then scan
  else if rules.unkeyedOnly && !entry.key.isEmpty then scan
  else if keyed && scan.blockedKeys.contains entry.key then scan
  else if !entry.isDeliverable rules.now then
    if keyed then scan.block entry.key else scan
  else if entry.isExhausted rules.maxAttempts then
    if keyed then
      if scan.emittedKeys.contains entry.key then scan.block entry.key
      else (scan.block entry.key).forward i
    else scan.forward i
  else
    let scan := if keyed then
        -- push and redelivery hold successors until the predecessor is acknowledged
        { (if rules.push || 0 < entry.deliveryAttempt then scan.block entry.key else scan) with
          emittedKeys := entry.key :: scan.emittedKeys }
      else scan
    scan.take i

end PullScan

/-- The attempt budget a pull applies. -/
def maxAttempts (s : SubscriptionState) (forwardingAuthorized : Bool) : Option ℕ :=
  if forwardingAuthorized then s.config.deadLetterPolicy.map DeadLetterPolicy.maxDeliveryAttempts
  else none

/-- The rules of a pull. -/
def pullRules (s : SubscriptionState) (max : ℕ) (now : LogicalInstant)
    (forwardingAuthorized : Bool) (batching : OrderedPullBatching) : PullRules where
  max
  now
  maxAttempts := s.maxAttempts forwardingAuthorized
  ordered := s.config.enableMessageOrdering
  push := s.config.isPush
  unkeyedOnly := s.config.enableMessageOrdering && decide (batching = .separateUnkeyed) &&
    (s.entries.drop s.firstUnacked).any fun e =>
      e.key.isEmpty && e.isDeliverable now && !e.isExhausted (s.maxAttempts forwardingAuthorized)

/-- The entries a pull takes and transfers. -/
def scan (s : SubscriptionState) (rules : PullRules) : PullScan :=
  ((s.entries.drop s.firstUnacked).zipIdx s.firstUnacked).foldl (PullScan.step rules) .empty

/-- Gives transfers back that are not authorized any more. -/
def withdrawForwards (s : SubscriptionState) (now : LogicalInstant) : SubscriptionState :=
  { s with entries := s.entries.map fun e =>
      if e.isForwardPending then { e with state := .available now } else e }

/-- Hands one entry to the subscriber under the next ack id. -/
def lease (deadline : LogicalInstant) (nextAckId : ℕ → AckId) (acc : List ReceivedMessage × SubscriptionState)
    (i : ℕ) : List ReceivedMessage × SubscriptionState :=
  match acc.2.entries[i]? with
  | none => acc
  | some entry =>
      let ackId := nextAckId acc.1.length
      let entry := { entry with
        deliveryAttempt := entry.deliveryAttempt + 1
        state := .outstanding ackId deadline }
      (acc.1 ++ [⟨ackId, entry.stored, entry.deliveryAttempt⟩], { acc.2 with
          entries := acc.2.entries.set i entry
          outstanding := acc.2.outstanding.insert ackId i })

/-- Delivers messages after `admission` has accepted them.  The ack ids come from `nextAckId`, the
first one under 0. -/
def pullWithAdmission (s : SubscriptionState) (max : ℕ) (now : LogicalInstant)
    (forwardingAuthorized : Bool) (batching : OrderedPullBatching) (nextAckId : ℕ → AckId)
    (admission : List StoredMessage → Bool) : PullOutcome × SubscriptionState :=
  let s := if forwardingAuthorized then s else s.withdrawForwards now
  if max = 0 then (⟨[], []⟩, s)
  else
    let deadline := (LogicalInstant.checkedAdd now s.config.ackDeadline).getD LogicalInstant.max
    let scan := s.scan (s.pullRules max now forwardingAuthorized batching)
    let candidates := scan.selected.filterMap fun i => s.entries[i]?.map Entry.stored
    if !candidates.isEmpty && !admission candidates then (⟨[], []⟩, s)
    else
      let deadLettered := scan.forwarded.filterMap fun i => s.entries[i]?.map Entry.stored
      let s := scan.forwarded.foldl (fun s i => s.setState i .forwardPending) s
      let (received, s) := scan.selected.foldl (lease deadline nextAckId) ([], s)
      (⟨received, deadLettered⟩, s.advanceFirstUnacked)

/-! ### Acknowledgement -/

/-- Acknowledges the entry of one ack id. -/
def acknowledgeOne (acc : ℕ × SubscriptionState) (ackId : AckId) : ℕ × SubscriptionState :=
  match acc.2.outstanding.get ackId with
  | none => acc
  | some i =>
      (acc.1 + 1, { acc.2 with outstanding := acc.2.outstanding.erase ackId }.setState i .acked)

/-- Acknowledges messages; unknown ack ids are ignored. -/
def acknowledge (s : SubscriptionState) (ackIds : List AckId) : ℕ × SubscriptionState :=
  let (acked, s) := ackIds.foldl acknowledgeOne (0, s)
  (acked, s.advanceFirstUnacked)

/-- Completes the transfer of a message. -/
def completeForward (s : SubscriptionState) (messageId : Str) : Bool × SubscriptionState :=
  match s.entries.findIdx? fun e => e.stored.messageId = messageId && e.isForwardPending with
  | none => (false, s)
  | some i => (true, (s.setState i .acked).advanceFirstUnacked)

/-- The delivery counter of a message waiting for its transfer. -/
def forwardingAttempt (s : SubscriptionState) (message : StoredMessage) : Option UInt32 :=
  (s.entries.find? fun e => e.isForwardPending && e.stored.address = message.address).map
    Entry.deliveryAttempt

/-- Gives a transfer back. -/
def resumeForward (s : SubscriptionState) (message : StoredMessage) (now : LogicalInstant) :
    SubscriptionState :=
  { s with entries := s.entries.map fun e =>
      if e.isForwardPending && e.stored.address = message.address then
        { e with state := .available now }
      else e }

/-- The messages waiting for their transfer. -/
def pendingForwards (s : SubscriptionState) : List StoredMessage :=
  (s.entries.filter Entry.isForwardPending).map Entry.stored

/-- Changes the ack deadline of an outstanding message; zero seconds give it back. -/
def modifyAckDeadline (s : SubscriptionState) (ackId : AckId) (seconds : ℕ)
    (now : LogicalInstant) : SubscriptionState :=
  match s.outstanding.get ackId with
  | none => s
  | some i =>
      if seconds = 0 then s.release now ackId
      else
        let deadline := (LogicalInstant.checkedAdd now (LogicalDuration.fromSeconds seconds)).getD
          LogicalInstant.max
        { s with entries := s.entries.modify i fun e =>
            match e.state with
            | .outstanding ackId _ => { e with state := .outstanding ackId deadline }
            | _ => e }

/-! ### Seek -/

/-- Seeks to a time. -/
def seekToTime (s : SubscriptionState) (time now : LogicalInstant) :
    Except PubSubError Unit × SubscriptionState :=
  if s.config.enableMessageOrdering then
    (.error ⟨.unimplemented, "seek to a timestamp is not supported for ordered subscriptions (official emulator limitation)"⟩, s)
  else
    let sought := fun e : Entry =>
      if e.stored.publishTime < time then { e with state := .acked }
      else { e with state := .available now, deliveryAttempt := 0 }
    (.ok (), { s with entries := s.entries.map sought }.rebuildIndexes)

/-- The ids of messages that are not acknowledged. -/
def unacknowledgedMessageIds (s : SubscriptionState) : SortedSet Str :=
  ((s.entries.filter fun e => !e.isAcked).map fun e => e.stored.messageId).foldl
    SortedSet.add SortedMap.empty

/-- The ids of retained messages. -/
def retainedMessageIds (s : SubscriptionState) : SortedSet Str :=
  (s.entries.map fun e => e.stored.messageId).foldl SortedSet.add SortedMap.empty

/-- The retained messages. -/
def retainedMessages (s : SubscriptionState) : List StoredMessage := s.entries.map Entry.stored

/-- The oldest publish time of a message that is not acknowledged. -/
def oldestUnacknowledgedPublishTime (s : SubscriptionState) : Option LogicalInstant :=
  ((s.entries.filter fun e => !e.isAcked).map fun e => e.stored.publishTime).min?

/-- The captured messages a subscription has lost and its filter admits. -/
def missingMessages (s : SubscriptionState) (capturedMessages : List StoredMessage)
    (retainedMessageIds : SortedSet Str) : List StoredMessage :=
  capturedMessages.filter fun message =>
    decide (message.messageId ∈ retainedMessageIds) &&
      !(s.entries.any fun e => e.stored.messageId = message.messageId) && s.admits message

/-- Whether messages do not fit beside all entries. -/
def exceedsRetention (s : SubscriptionState) (count bytes : ℕ) : Bool :=
  maxRetainedPerSub < saturatingAdd s.entries.length count ||
    maxRetainedBytesPerSub < saturatingAdd s.retainedBytes bytes

/-- The acknowledgement state of an entry after a seek to a snapshot. -/
def restored (retainedMessageIds unacknowledgedMessageIds : SortedSet Str)
    (createdAt now : LogicalInstant) (e : Entry) : Entry :=
  if e.stored.messageId ∈ unacknowledgedMessageIds ∨
      e.stored.messageId ∉ retainedMessageIds ∧ createdAt ≤ e.stored.publishTime then
    { e with state := .available now, deliveryAttempt := 0 }
  else { e with state := .acked }

/-- Inserts messages before the entries published after the snapshot, and restores the
acknowledgement state it captured. -/
def restore (s : SubscriptionState) (missing : List StoredMessage)
    (retainedMessageIds unacknowledgedMessageIds : SortedSet Str)
    (createdAt now : LogicalInstant) : SubscriptionState :=
  let later := fun e : Entry =>
    decide (e.stored.messageId ∉ retainedMessageIds ∧ createdAt ≤ e.stored.publishTime)
  let entries := s.entries.takeWhile (fun e => !later e) ++
    missing.map (fun stored => ⟨stored, .available now, 0⟩) ++ s.entries.dropWhile fun e => !later e
  rebuildIndexes { s with
    entries := entries.map (restored retainedMessageIds unacknowledgedMessageIds createdAt now) }

/-- Restores the acknowledgement state captured by a snapshot. -/
def seekToSnapshot (s : SubscriptionState) (capturedMessages : List StoredMessage)
    (retainedMessageIds unacknowledgedMessageIds : SortedSet Str)
    (createdAt now : LogicalInstant) : Except PubSubError Unit × SubscriptionState :=
  let missing := s.missingMessages capturedMessages retainedMessageIds
  let acked := s.entries.filter Entry.isAcked
  let ackedBytes := (acked.map fun e => messageBytes e.stored).sum
  let missingBytes := (missing.map messageBytes).sum
  if s.exceedsRetention missing.length missingBytes then
    if maxRetainedPerSub < saturatingAdd (s.entries.length - acked.length) missing.length ∨
        maxRetainedBytesPerSub < saturatingAdd (s.retainedBytes - ackedBytes) missingBytes then
      let name := String.ofList s.config.name.toFull
      (.error ⟨.resourceExhausted,
        s!"subscription {name} cannot restore the snapshot within its retention bounds"⟩, s)
    else
      (.ok (), s.reclaimAckedEntries.restore missing retainedMessageIds unacknowledgedMessageIds
        createdAt now)
  else
    (.ok (), s.restore missing retainedMessageIds unacknowledgedMessageIds createdAt now)

/-! ### Configuration -/

/-- Commits a validated configuration. An update keeps the name, the topic, the filter and
ordering. -/
def replaceConfig (s : SubscriptionState) (config : SubscriptionConfig) : SubscriptionState :=
  { s with config }

/-- Detaches the subscription from its deleted topic. -/
def markTopicDeleted (s : SubscriptionState) : SubscriptionState :=
  { s with config := { s.config with topic := .deleted } }

end SubscriptionState

end Fireemu.PubSub
