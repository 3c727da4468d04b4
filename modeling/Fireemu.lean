import Fireemu.Auth.Base32
import Fireemu.Auth.QuotaBound
import Fireemu.Auth.RefreshTokens
import Fireemu.Database.PushId
import Fireemu.Database.Rules
import Fireemu.Database.TreeRun
import Fireemu.Events.Backoff
import Fireemu.Events.OutboxRun
import Fireemu.Firestore.CanonicalForm
import Fireemu.Firestore.Dnf
import Fireemu.Firestore.FieldPathParse
import Fireemu.Firestore.MaskedFields
import Fireemu.Firestore.Partition
import Fireemu.Firestore.Reclaim
import Fireemu.Firestore.ResourceName
import Fireemu.Firestore.StateRun
import Fireemu.PubSub.Pagination
import Fireemu.PubSub.Schedule
import Fireemu.PubSub.SeekOrder
import Fireemu.Rules.Decision
import Fireemu.Session.ClockRun
import Fireemu.Session.IdSource
import Fireemu.Storage.Assembly
import Fireemu.Storage.PublicRead
import Fireemu.Storage.StoredBytes
