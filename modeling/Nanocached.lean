import Nanocached.Cache.Theorems.Accounting
import Nanocached.Cache.Theorems.GlobalLru
import Nanocached.Cache.Theorems.NoResurrection
import Nanocached.Cache.Theorems.TimedMap
import Nanocached.HashRing.Theorems
import Nanocached.ForwardQueue.Admission
import Nanocached.InFlight.Theorems
import Nanocached.Handoff.Rollback
import Nanocached.Handoff.RingHistory
import Nanocached.Handoff.Serving
import Nanocached.Handoff.Forwarding
import Nanocached.Handoff.ReclaimTheorems
import Nanocached.Handoff.PendingClears
import Nanocached.Cache.Theorems.Bounds
import Nanocached.Cache.Theorems.TombstoneOrder
import Nanocached.Cache.Theorems.Digests
import Nanocached.Cache.Theorems.Backlog
import Nanocached.Cache.Theorems.BatchBounds
import Nanocached.HashRing.Agreement
import Nanocached.Handoff.Rereplication
import Nanocached.Command.Resume
import Nanocached.Proxy.RespondTheorems
import Nanocached.Proxy.Desync
import Nanocached.Discovery.Rosters
import Nanocached.Discovery.Inert
import Nanocached.Discovery.DepartedTheorems
import Nanocached.Discovery.LimiterTheorems
import Nanocached.Proxy.IpShares
import Nanocached.Sdk.HedgeTheorems
import Nanocached.Sdk.Chunks
