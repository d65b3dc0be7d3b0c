import LinkedCache.Main
import LinkedCache.Node
import LinkedCache.Proofs.ArrivalOrder
import LinkedCache.Proofs.BackLinks
import LinkedCache.Proofs.Documents
import LinkedCache.Proofs.Draining
import LinkedCache.Proofs.Edits
import LinkedCache.Proofs.Effects
import LinkedCache.Proofs.Identity
import LinkedCache.Proofs.Independence
import LinkedCache.Proofs.Keys
import LinkedCache.Proofs.Layout
import LinkedCache.Proofs.LeadingBack
import LinkedCache.Proofs.Ledger
import LinkedCache.Proofs.Maps
import LinkedCache.Proofs.Merging
import LinkedCache.Proofs.Payloads
import LinkedCache.Proofs.Pruning
import LinkedCache.Proofs.Query
import LinkedCache.Proofs.Queues
import LinkedCache.Proofs.Reading
import LinkedCache.Proofs.Records
import LinkedCache.Proofs.Registry
import LinkedCache.Proofs.Rejection
import LinkedCache.Proofs.Repetition
import LinkedCache.Proofs.Sessions
import LinkedCache.Proofs.SharedTargets
import LinkedCache.Proofs.Statuses
import LinkedCache.Proofs.Supersession
import LinkedCache.Proofs.Withdrawal
