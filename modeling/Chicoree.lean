import Chicoree.Audit.Details
import Chicoree.Charts.Provenance
import Chicoree.Charts.TarEntries
import Chicoree.Events.DeliveredOnce
import Chicoree.Images.CleanupRuns
import Chicoree.Images.LayerDiff
import Chicoree.Images.MoveLosesNothing
import Chicoree.Images.PlanExact
import Chicoree.Images.PruneProtected
import Chicoree.Jobs.RunsAlone
import Chicoree.Listings.EveryPayload
import Chicoree.Listings.Pages
import Chicoree.Logins.FiveFailures
import Chicoree.Memberships.Administrators
import Chicoree.Memberships.DomainLists
import Chicoree.Memberships.MemberLimit
import Chicoree.PullBlocks.Converge
import Chicoree.PullBlocks.SecurityPages
import Chicoree.Quotas.Announced
import Chicoree.Quotas.OverLimit
import Chicoree.Quotas.OwnQuota
import Chicoree.Quotas.QuotasAgree
import Chicoree.Quotas.ScopedRuns
import Chicoree.RateLimits.ClientAddress
import Chicoree.RateLimits.PullLimit
import Chicoree.RateLimits.StoredSettings
import Chicoree.Registryd.ClosureRuns
import Chicoree.Registryd.FailedPush
import Chicoree.Registryd.FormerNames
import Chicoree.Registryd.GracePeriod
import Chicoree.Registryd.ImmutableTags
import Chicoree.Registryd.LiveSessions
import Chicoree.Registryd.LocalAppend
import Chicoree.Registryd.NamesKeepWorking
import Chicoree.Registryd.Ranges
import Chicoree.Registryd.ResolversAgree
import Chicoree.Registryd.Routing
import Chicoree.Registryd.TagFreshness
import Chicoree.Registryd.Traffic
import Chicoree.RepoMoves.SettingsFollow
import Chicoree.Scans.Reports
import Chicoree.Scans.ScanAttempts
import Chicoree.Signatures.Binding
import Chicoree.Signatures.CiTrust
import Chicoree.Storage.DryRun
import Chicoree.Storage.OrphansTaken
import Chicoree.Tokens.ExpiryReminders
import Chicoree.Tokens.Lifetimes
import Chicoree.Tokens.Rotation
import Chicoree.Web.AccessEnds
import Chicoree.Web.Doors
import Chicoree.Web.OneReading
import Chicoree.Web.ReadOnly
import Chicoree.Web.Restricted
import Chicoree.Mirrors.TagListing
import Chicoree.RateLimits.Refusals
import Chicoree.Storage.S3Upload
import Chicoree.Registryd.RepositoryNames
