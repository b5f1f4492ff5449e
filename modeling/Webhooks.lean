import Webhooks.Properties.Terminal
import Webhooks.Properties.Fencing
import Webhooks.Properties.OneInFlight
import Webhooks.Properties.Recovery
import Webhooks.Properties.PublicationOrder
import Webhooks.Properties.ExactlyOnce
import Webhooks.Properties.Truth
import Webhooks.Properties.AttemptHistory
import Webhooks.Properties.Blocked
import Webhooks.Properties.Ceiling
import Webhooks.Properties.Recording
import Webhooks.Properties.Halt
import Webhooks.Properties.Polling
import Webhooks.Properties.Fairness
import Webhooks.Properties.Idempotency
import Webhooks.Properties.Replay
import Webhooks.Properties.Rotation
import Webhooks.Properties.Isolation
import Webhooks.Properties.Disclosure
import Webhooks.Properties.Walks
import Webhooks.Properties.Ssrf
import Webhooks.Properties.Spelling
import Webhooks.Properties.Settlement
import Webhooks.Properties.GrowingWalks
import Webhooks.Properties.Backoff
import Webhooks.Properties.Interop
import Webhooks.Properties.ConnectedAddress
import Webhooks.Properties.ClientInput
import Webhooks.Properties.Migrations
import Webhooks.Properties.Parity
import Webhooks.Properties.Effects
import Webhooks.Properties.Drain
import Webhooks.Properties.Served
import Webhooks.Properties.Punctual
import Webhooks.Properties.NodeMigrations
import Webhooks.Properties.Channels
import Webhooks.Properties.Console
import Webhooks.Properties.Settings
