import Fireemu.PubSub.Publication
import Fireemu.PubSub.Registry

/-!
# Runs of the broker

The requests of clients and adapters as data, and runs of them.  A prepared publication belongs to
whoever prepared it until it is committed, so a run keeps those that are not committed yet.
-/

namespace Fireemu.PubSub

open Library (SortedMap SortedSet)

/-- The state of the broker and the publications that are prepared. -/
structure Broker where
  state : PubSubState
  pool : List PreparedPublication

/-- A request. -/
inductive Command
  | setPushMinimumRedeliveryInterval (interval : LogicalDuration)
  | createTopic (name : TopicName) (checked : Except PubSubError Unit)
  | deleteTopic (name : TopicName)
  | createSubscription (config : SubscriptionConfig) (checked : Except PubSubError Unit)
  | markFunctionSubscription (name : SubscriptionName)
  | deleteSubscription (name : SubscriptionName)
  | updateAckDeadline (name : SubscriptionName) (seconds : ℕ)
  | updatePushConfig (name : SubscriptionName) (pushEndpoint : Str)
  | updateSubscriptionConfiguration (name : SubscriptionName)
      (update : PubSubState.SubscriptionUpdate)
      (check : SubscriptionConfig → Except PubSubError Unit)
  | createSnapshot (requestedName : Str) (subscription : SubscriptionName)
      (labels : SortedMap Str Str) (now : LogicalInstant)
  | getSnapshot (name : Str) (now : LogicalInstant)
  | listSnapshots (now : LogicalInstant)
  | updateSnapshot (name : Str) (labels : SortedMap Str Str) (now : LogicalInstant)
  | deleteSnapshot (name : Str) (now : LogicalInstant)
  | seekToSnapshot (subscription : SubscriptionName) (snapshotName : Str) (now : LogicalInstant)
  | clear
  | clearProject (project : Str)
  | clearProjectsWhere (accepted : Str → Bool)
  | preparePublish (topic : TopicName) (messages : List PubsubMessage) (now : LogicalInstant)
  | preparePublishWithMessageIds (topic : TopicName) (messages : List (PubsubMessage × Str))
      (now : LogicalInstant)
  | prepareDeadLetterPublication (forward : DeadLetterForward) (authorized enforced : Bool)
      (now : LogicalInstant)
  /-- Commits the prepared publication at an index of the pool. -/
  | commitPrepared (i : ℕ) (now : LogicalInstant)
  | pull (name : SubscriptionName) (max : ℕ) (now : LogicalInstant)
      (batching : OrderedPullBatching) (authorized : Bool)
      (admission : List StoredMessage → Bool)
  | acknowledge (name : SubscriptionName) (ackIds : List AckId)
  | retainOutstandingAckIds (name : SubscriptionName) (ackIds : SortedSet AckId)
      (now : LogicalInstant)
  | modifyAckDeadline (name : SubscriptionName) (ackIds : List AckId) (seconds : ℕ)
      (now : LogicalInstant)
  | seekToTime (name : SubscriptionName) (time now : LogicalInstant)
  | expireAll (now : LogicalInstant)
  | completeDeadLetter (name : SubscriptionName) (messageId : Str)
  | resumeDeadLetter (forward : DeadLetterForward) (now : LogicalInstant)

namespace Broker

/-- An empty broker. -/
def new (seed : BitVec 64) : Broker := ⟨PubSubState.new seed, []⟩

/-- Takes over the state of an operation. -/
def after {α : Type} (b : Broker) (outcome : Outcome α) : Broker := { b with state := outcome.2 }

/-- Takes over the state of a preparation, and its result into the pool. -/
def prepared (b : Broker) (outcome : Outcome PreparedPublication) : Broker :=
  match outcome with
  | (.error _, state) => { b with state }
  | (.ok publication, state) => ⟨state, b.pool ++ [publication]⟩

variable (platform : Platform)

/-- Executes a command; `none` where the source would panic. -/
def exec (b : Broker) : Command → Option Broker
  | .setPushMinimumRedeliveryInterval interval =>
      some { b with state := b.state.setPushMinimumRedeliveryInterval interval }
  | .createTopic name checked => some (b.after (b.state.createTopic name checked))
  | .deleteTopic name => some (b.after (b.state.deleteTopic name))
  | .createSubscription config checked => some (b.after (b.state.createSubscription config checked))
  | .markFunctionSubscription name => some (b.after (b.state.markFunctionSubscription name))
  | .deleteSubscription name => some (b.after (b.state.deleteSubscription name))
  | .updateAckDeadline name seconds => some (b.after (b.state.updateAckDeadline name seconds))
  | .updatePushConfig name endpoint => some (b.after (b.state.updatePushConfig name endpoint))
  | .updateSubscriptionConfiguration name update check =>
      some (b.after (b.state.updateSubscriptionConfiguration name update check))
  | .createSnapshot requestedName subscription labels now =>
      some (b.after (b.state.createSnapshot platform requestedName subscription labels now))
  | .getSnapshot name now => some (b.after (b.state.getSnapshot platform name now))
  | .listSnapshots now => some { b with state := b.state.removeExpiredSnapshots platform now }
  | .updateSnapshot name labels now =>
      some (b.after (b.state.updateSnapshot platform name labels now))
  | .deleteSnapshot name now => some (b.after (b.state.deleteSnapshot platform name now))
  | .seekToSnapshot subscription snapshotName now =>
      some (b.after (b.state.seekToSnapshot platform subscription snapshotName now))
  | .clear => some { b with state := b.state.clear }
  | .clearProject project => some { b with state := b.state.clearProject platform project }
  | .clearProjectsWhere accepted =>
      some { b with state := b.state.clearProjectsWhere platform accepted }
  | .preparePublish topic messages now =>
      some (b.prepared (b.state.preparePublish platform topic messages now))
  | .preparePublishWithMessageIds topic messages now =>
      some (b.prepared (b.state.preparePublishWithMessageIds platform topic messages now))
  | .prepareDeadLetterPublication forward authorized enforced now =>
      some (b.prepared
        (b.state.prepareDeadLetterPublication platform forward authorized enforced now))
  | .commitPrepared i now =>
      match b.pool[i]? with
      | none => some b
      | some publication =>
          (b.state.commitPrepared platform publication now).map fun outcome =>
            ⟨outcome.2, b.pool.eraseIdx i⟩
  | .pull name max now batching authorized admission =>
      some (b.after (b.state.pullWithDeadLettersAdmitted name max now batching authorized admission))
  | .acknowledge name ackIds => some (b.after (b.state.acknowledge name ackIds))
  | .retainOutstandingAckIds name ackIds now =>
      some (b.after (b.state.retainOutstandingAckIds name ackIds now))
  | .modifyAckDeadline name ackIds seconds now =>
      some (b.after (b.state.modifyAckDeadline name ackIds seconds now))
  | .seekToTime name time now => some (b.after (b.state.seekToTime name time now))
  | .expireAll now => some { b with state := b.state.expireAll platform now }
  | .completeDeadLetter name messageId => some (b.after (b.state.completeDeadLetter name messageId))
  | .resumeDeadLetter forward now => some { b with state := b.state.resumeDeadLetter forward now }

/-- Executes commands in order. -/
def run (b : Broker) (commands : List Command) : Option Broker :=
  commands.foldlM (exec platform) b

/-- A subscription of the broker. -/
abbrev sub? (b : Broker) (key : Str) : Option SubscriptionState :=
  b.state.subscriptions.get key

end Broker

end Fireemu.PubSub
