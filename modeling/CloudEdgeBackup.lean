import CloudEdgeBackup.Lib.Bytes
import CloudEdgeBackup.Lib.Blocks
import CloudEdgeBackup.Lib.Format
import CloudEdgeBackup.Lib.Versions
import CloudEdgeBackup.Lib.Wildcards
import CloudEdgeBackup.Lib.EditDistance
import CloudEdgeBackup.Lib.Shell
import CloudEdgeBackup.Lib.Codec
import CloudEdgeBackup.Lib.Deflate
import CloudEdgeBackup.Rsync
import CloudEdgeBackup.FileIO
import CloudEdgeBackup.Output
import CloudEdgeBackup.Delta
import CloudEdgeBackup.Receiver
import CloudEdgeBackup.RoundTrip
import CloudEdgeBackup.Checksum
import CloudEdgeBackup.Match
import CloudEdgeBackup.Transfer
import CloudEdgeBackup.InPlace
import CloudEdgeBackup.SearchPasses
import CloudEdgeBackup.Store
import CloudEdgeBackup.Recovery
import CloudEdgeBackup.Wildmatch
import CloudEdgeBackup.FuzzyDistance
import CloudEdgeBackup.BatchFlags
import CloudEdgeBackup.BatchScript
import CloudEdgeBackup.Deletion
import CloudEdgeBackup.Wire
import CloudEdgeBackup.Tokens
import CloudEdgeBackup.TokenLoops
import CloudEdgeBackup.TokensRoundTrip
import CloudEdgeBackup.RecvFiles
import CloudEdgeBackup.Outcomes
import CloudEdgeBackup.BackupPass
import CloudEdgeBackup.Incremental
import CloudEdgeBackup.Differential
import CloudEdgeBackup.RecordedBasis
import CloudEdgeBackup.Selection
import CloudEdgeBackup.RecoveryRun
import CloudEdgeBackup.Arguments
import CloudEdgeBackup.WholeFile
import CloudEdgeBackup.WholeFilePass
import CloudEdgeBackup.Digest
import CloudEdgeBackup.Sanitize
import CloudEdgeBackup.Authenticate
import CloudEdgeBackup.ChecksumExchange
import CloudEdgeBackup.BlockSizes
import CloudEdgeBackup.LiteralRuns
import CloudEdgeBackup.FileEntryRoundTrip
import CloudEdgeBackup.NameLaws
import CloudEdgeBackup.FileListClean
import CloudEdgeBackup.FlistFind
import CloudEdgeBackup.PointInTime
import CloudEdgeBackup.MergedName
import CloudEdgeBackup.MergeFailure
import CloudEdgeBackup.Retention
import CloudEdgeBackup.Symlinks
import CloudEdgeBackup.IdLists
import CloudEdgeBackup.Flists
import CloudEdgeBackup.Xattrs
import CloudEdgeBackup.Acls
import CloudEdgeBackup.Lib.MergeSort
import CloudEdgeBackup.FileSort
import CloudEdgeBackup.MapWindow
import CloudEdgeBackup.Lib.Probing
import CloudEdgeBackup.Hashtable
import CloudEdgeBackup.HardLinks
import CloudEdgeBackup.HardLinkGroups
import CloudEdgeBackup.DeleteDelay
import CloudEdgeBackup.ModeChanges
import CloudEdgeBackup.FilterRules
import CloudEdgeBackup.HostAccess
import CloudEdgeBackup.OutputWords
import CloudEdgeBackup.ListingBound
import CloudEdgeBackup.NumericIds
import CloudEdgeBackup.TmpNames
import CloudEdgeBackup.DelayedBits
import CloudEdgeBackup.CleanNames
import CloudEdgeBackup.SkipCompress
import CloudEdgeBackup.PruneDirs
import CloudEdgeBackup.ExtraLists
import CloudEdgeBackup.TmpCaches
import CloudEdgeBackup.Pools
import CloudEdgeBackup.SparseFiles
import CloudEdgeBackup.MultiplexRuns
import CloudEdgeBackup.Demultiplex
import CloudEdgeBackup.HardLinkQueue
import CloudEdgeBackup.HardLinkStates
import CloudEdgeBackup.HardLinkGenerator
import CloudEdgeBackup.HardLinkRuns
import CloudEdgeBackup.RuleTokens
import CloudEdgeBackup.RuleLists
import CloudEdgeBackup.RuleExchange
import CloudEdgeBackup.RuleDecisions
