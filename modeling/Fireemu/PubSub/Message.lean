import Fireemu.Library.SortedMap
import Fireemu.Types.Ids
import Fireemu.Types.Machine
import Fireemu.Types.Time

/-!
# Published messages and resource names

A published message is allocated once and shared by every subscription and snapshot that holds it.
The source compares such shares by allocation, so a stored message carries the identity of its own.
-/

namespace Fireemu.PubSub

open Library (SortedMap SortedSet)

/-- Status classes. -/
inductive Code
  | invalidArgument | notFound | alreadyExists | failedPrecondition | resourceExhausted
  | unimplemented
  deriving DecidableEq, Repr

/-- A classified error. -/
structure PubSubError where
  code : Code
  message : String
  deriving DecidableEq, Repr

/-- The topic a subscription reports once its own is gone. -/
def deletedTopic : Str := "_deleted-topic_".toList

/-- A fully-qualified topic name. -/
structure TopicName where
  project : Str
  topic : Str
  deriving DecidableEq

/-- A fully-qualified subscription name. -/
structure SubscriptionName where
  project : Str
  subscription : Str
  deriving DecidableEq

namespace TopicName

/-- Whether this is the name of a deleted topic. -/
def isDeletedSentinel (n : TopicName) : Bool := n.topic = deletedTopic

/-- The canonical text. -/
def toFull (n : TopicName) : Str :=
  if n.isDeletedSentinel then deletedTopic
  else "projects/".toList ++ n.project ++ "/topics/".toList ++ n.topic

/-- The name a subscription is given when its topic is deleted. -/
def deleted : TopicName := ⟨[], deletedTopic⟩

end TopicName

/-- The canonical text. -/
def SubscriptionName.toFull (n : SubscriptionName) : Str :=
  "projects/".toList ++ n.project ++ "/subscriptions/".toList ++ n.subscription

/-- A message as accepted for publication. -/
structure PubsubMessage where
  data : List UInt8
  attributes : SortedMap Str Str
  /-- Empty for a message without ordering. -/
  orderingKey : Str

/-- A message as stored, with the identity and time the broker gave it. -/
structure StoredMessage where
  /-- The allocation all shares of this message point to. -/
  address : ℕ
  messageId : Str
  publishTime : LogicalInstant
  message : PubsubMessage

/-- The bytes a subscription is charged for a message. -/
def messageBytes (stored : StoredMessage) : ℕ :=
  saturatingAdd
    (saturatingAdd stored.message.data.length stored.message.orderingKey.utf8Len)
    (SortedMap.sum stored.message.attributes fun key value =>
      saturatingAdd key.utf8Len value.utf8Len)

end Fireemu.PubSub
