import SegmentedLog.File.Writer
import SegmentedLog.Main
import SegmentedLog.Segment.Find
import SegmentedLog.Proofs.Input
import SegmentedLog.Proofs.EntryCodec
import SegmentedLog.Proofs.Reading
import SegmentedLog.Proofs.Consecutive
import SegmentedLog.Proofs.Scanning
import SegmentedLog.Proofs.Disk
import SegmentedLog.Proofs.Files
import SegmentedLog.Proofs.Writing
import SegmentedLog.Proofs.Caching
import SegmentedLog.Proofs.Records
import SegmentedLog.Proofs.Taking
import SegmentedLog.Proofs.Replay
import SegmentedLog.Proofs.ScanFailures
import SegmentedLog.Proofs.FileEffects
import SegmentedLog.Proofs.Recovery
import SegmentedLog.Proofs.RoundTrip
import SegmentedLog.Proofs.TornWrites
import SegmentedLog.Proofs.LiveAccounting
import SegmentedLog.Proofs.Rereading
import SegmentedLog.Proofs.Accounts
import SegmentedLog.Proofs.SegmentRuns
import SegmentedLog.Proofs.Loading
import SegmentedLog.Proofs.Renaming
import SegmentedLog.Proofs.Journal
import SegmentedLog.Proofs.FileNames
import SegmentedLog.Proofs.Listing
import SegmentedLog.Proofs.Restart
import SegmentedLog.Proofs.Acceptance
import SegmentedLog.Proofs.ErrorDetection
import SegmentedLog.Proofs.Alterations
import SegmentedLog.Proofs.Tolerance
import SegmentedLog.Proofs.Conservation
import SegmentedLog.Proofs.Rejection
import SegmentedLog.Proofs.PartialScans
import SegmentedLog.Proofs.Durability
import SegmentedLog.Proofs.Lookup
import SegmentedLog.Proofs.Reopening
import SegmentedLog.Proofs.CacheInvariants
import SegmentedLog.Proofs.CacheSizes
import SegmentedLog.Proofs.CacheMaps
import SegmentedLog.Proofs.Truncation
import SegmentedLog.Proofs.Warming
import SegmentedLog.Proofs.Continuation
import SegmentedLog.Proofs.Exhaustion
import SegmentedLog.Proofs.Locating
import SegmentedLog.Proofs.PrefixFreedom
import SegmentedLog.Proofs.Clearing
import SegmentedLog.Proofs.IndexRuns
import SegmentedLog.Proofs.NumberCodec
import SegmentedLog.Proofs.NameGrammar
import SegmentedLog.Proofs.Paths
import SegmentedLog.Proofs.CommandLine
import SegmentedLog.Proofs.Reloading
import SegmentedLog.Proofs.Inspection
import SegmentedLog.Proofs.LettingGo
