import CloudSync.Accounts.ConcurrentSignups
import CloudSync.Accounts.Decoding
import CloudSync.Accounts.Escalation
import CloudSync.Accounts.SignIn
import CloudSync.Accounts.SignupExact
import CloudSync.Accounts.UserIds
import CloudSync.Audit.LogLines
import CloudSync.Audit.OneEntry
import CloudSync.Concurrent.Backups
import CloudSync.Concurrent.CrashSafety
import CloudSync.Concurrent.Isolation
import CloudSync.Concurrent.Lifetime
import CloudSync.Concurrent.LockExclusion
import CloudSync.Concurrent.OwnerExclusion
import CloudSync.Concurrent.Provenance
import CloudSync.Concurrent.Quiescence
import CloudSync.Concurrent.Recovery
import CloudSync.Concurrent.SharedArray
import CloudSync.Concurrent.StepIsolation
import CloudSync.Concurrent.StepUpkeep
import CloudSync.Concurrent.StoreOrder
import CloudSync.Concurrent.TornReads
import CloudSync.Concurrent.VersionCount
import CloudSync.Names.Confinement
import CloudSync.Replies.FileList
import CloudSync.Replies.NewestEntries
import CloudSync.Sequential.Commute
import CloudSync.Sequential.EditLease
import CloudSync.Sequential.History
import CloudSync.Sequential.IoFailures
import CloudSync.Sequential.LockAgreement
import CloudSync.Sequential.NoLostUpdate
import CloudSync.Sequential.Ownership
import CloudSync.Sequential.Refusals
import CloudSync.Sequential.Restart
import CloudSync.Sequential.Rollback
import CloudSync.Sequential.StoreRefinement
import CloudSync.Sessions.Delivery
import CloudSync.Sessions.Draining
import CloudSync.Sessions.EndToEnd
import CloudSync.Sessions.Frames
import CloudSync.Sessions.Progress
import CloudSync.Sessions.RoundTrip
import CloudSync.Sessions.TypedLines
import CloudSync.State.Leases
import CloudSync.State.NewestKept
