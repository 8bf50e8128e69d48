import ConsumerLag.HashMap
import ConsumerLag.Types
import ConsumerLag.Select
import ConsumerLag.RegisterHandlers
import ConsumerLag.RegisterImport
import ConsumerLag.RegisterRefresh
import ConsumerLag.RegisterRun
import ConsumerLag.ImportInterleaving
import ConsumerLag.Reconciler
import ConsumerLag.Delivery
import ConsumerLag.RegisterWrites
import ConsumerLag.Metrics
import ConsumerLag.Emitter
import ConsumerLag.ConsumerGroups
