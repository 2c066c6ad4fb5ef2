import AeroVault.Repository.VersionOrder
import AeroVault.Service.ReadBack
import AeroVault.Service.Worm
import AeroVault.Reconcile.Retention
import AeroVault.Antivirus.Verdict
import AeroVault.Reconcile.Orphans
import AeroVault.S3.Lifecycle
import AeroVault.Replication.Convergence
import AeroVault.WebDav.Rename
import AeroVault.Ai.Query
import AeroVault.S3.PolicyGate
import AeroVault.Auth.Policy
import AeroVault.S3.ListPage
import AeroVault.Service.Trash
import AeroVault.S3.ListUploads
import AeroVault.S3.ListVersions
import AeroVault.Access.Shares
import AeroVault.Service.Retention
import AeroVault.Service.LegalHolds
import AeroVault.Jobs.Fencing
import AeroVault.Repository.GovernanceRuns
import AeroVault.Service.FailedCompletion
import AeroVault.Service.OneCompletion
import AeroVault.Rest.Fingerprint
import AeroVault.Rest.ConditionalPut
import AeroVault.Spaces.Membership
import AeroVault.Billing.Runtime
import AeroVault.Ai.Bm25
import AeroVault.Cluster.Singleton
import AeroVault.Snapshot.Archive
import AeroVault.Service.StorageKeys
import AeroVault.Service.QuotaBounds
import AeroVault.Auth.Wildcard
import AeroVault.Service.ObjectACL
import AeroVault.Storage.Rewrap
import AeroVault.Auth.PayloadHash
import AeroVault.Events.Notifier
import AeroVault.Service.Metadata
import AeroVault.Replication.Tags
import AeroVault.Ai.Cost
