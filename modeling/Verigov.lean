import Verigov.Laws
import Verigov.Pallet
import Verigov.Mock
import Verigov.Machine
import Verigov.Lib.StorageMap
import Verigov.Lib.Transition
import Verigov.Lib.Bounded
import Verigov.Lib.Currency
import Verigov.Types
import Verigov.Frames
import Verigov.Lib.Agenda
import Verigov.Lifecycle
import Verigov.Ids
import Verigov.Registry
import Verigov.Schedule
import Verigov.Escrow
import Verigov.ReleaseLog
import Verigov.Provenance
import Verigov.Tally
import Verigov.Acceptance
import Verigov.Progress
import Verigov.Delay
import Verigov.Authorization
import Verigov.Collateral
import Verigov.Slashing
import Verigov.Offences
import Verigov.Closed
import Verigov.Revotes
import Verigov.Reuse
import Verigov.Releasable
import Verigov.OpenVotes
import Verigov.Isolation
import Verigov.Journal
import Verigov.Quorums
import Verigov.Batch
import Verigov.Genesis
import Verigov.Lib.Disk
import Verigov.Lib.Hex
import Verigov.Lib.Tool
import Verigov.Lib.Sha256
import Verigov.Store
import Verigov.Lib.FileTree
import Verigov.Lib.Unicode
import Verigov.SourceTree
import Verigov.Client
import Verigov.Attested
import Verigov.Installs
import Verigov.Runtime
import Verigov.InstallPath
import Verigov.Pinned
import Verigov.Blessed
import Verigov.Lib.Placement
import Verigov.Sync
import Verigov.Lib.Layout
import Verigov.Payload
import Verigov.Lib.JsonText
import Verigov.Builder
import Verigov.CommitId
import Verigov.Rebuild
import Verigov.Attesting
import Verigov.Verdicts
import Verigov.Released
import Verigov.Views
import Verigov.Watch
import Verigov.Custody
import Verigov.Punctual
import Verigov.Lib.Occurrence
import Verigov.Placeholders
