import Loftail.DelimitedLines
import Loftail.StartGroups
import Loftail.BlockPrefixSums
import Loftail.ResumableFold
import Loftail.Record
import Loftail.RecordIndex
import Loftail.LogFormat
import Loftail.Platform
import Loftail.TimestampParser
import Loftail.Decoder
import Loftail.Indexer
import Loftail.LineFold
import Loftail.Filter
import Loftail.FilteredIndex
import Loftail.ContextEmitter
import Loftail.Highlight
import Loftail.Document
import Loftail.Digest
import Loftail.LiveController
import Loftail.LiveIngest
import Loftail.IncrementalIndex
import Loftail.RunQueries
import Loftail.RunList
import Loftail.RunStatistics
import Loftail.DensityMap
import Loftail.EstimatedGeometry
import Loftail.GeometrySync
import Loftail.ContextResume
import Loftail.FilteredAppend
import Loftail.ViewBounds
import Loftail.LiveFilter
import Loftail.ResolvedRules
import Loftail.LiveAlerts
import Loftail.DigestRebuild
import Loftail.DigestUpdate
import Loftail.LiveDigest
import Loftail.LineLookup
import Loftail.RowLookup
import Loftail.Interleaving
import Loftail.SpoolRegistry
import Loftail.SharedReads
import Loftail.SpooledLogSource
import Loftail.SpoolWatch
import Loftail.IndexCoverage
import Loftail.SpoolWatchTicks
import Loftail.SpoolCompletion
import Loftail.StaleRecords
import Loftail.GuiCallGate
import Loftail.GuiCallGateRuns
import Loftail.GuiCallOutcome
import Loftail.LineSearch
import Loftail.SerialFraming
import Loftail.FramedRoundTrip
import Loftail.PartialFrame
import Loftail.RegularLanguage
import Loftail.DateTranslation
import Loftail.PatternLanguage
import Loftail.DateReading
import Loftail.DateAgreement
import Loftail.PatternCompiler
import Loftail.Rendering
import Loftail.RenderedDates
import Loftail.RenderedRecords
import Loftail.TelnetNegotiation
import Loftail.SerialLoginMachine
import Loftail.SerialLoginRuns
import Loftail.SerialLoginSafety
import Loftail.SerialLoginBounds
import Loftail.SerialStartup
import Loftail.Programs
import Loftail.FailedSave
import Loftail.SharedStore
import Loftail.LogPathSpelling
import Loftail.ContextRows
import Loftail.GeometryMapping
import Loftail.AppendOnlyLog
import Loftail.IndexBatches
import Loftail.ContainerReading
import Loftail.WholeMember
import Loftail.BookmarkFrames
import Loftail.SessionOwnership
import Loftail.MarkerWindow
import Loftail.CommandWords
import Loftail.PasswordFree
import Loftail.LogSettings
import Loftail.CompositeCodes
import Loftail.FieldGroups
import Loftail.FrameCap
import Loftail.MessageCell
import Loftail.SavedCriteria
import Loftail.ReducedSettings
import Loftail.FilterUndoStack
import Loftail.FirstMatches
import Loftail.EncodingSample
import Loftail.SelectedRun
import Loftail.PublishedDigest
import Loftail.FormatPreview
import Loftail.ReparseTimestamps
import Loftail.InternedNames
import Loftail.TabLabels
import Loftail.LineInference
import Loftail.FirstBest
import Loftail.FormatDetector
import Loftail.RestartRunner
import Loftail.StaleFrames
import Loftail.ConsoleSession
import Loftail.LocalWatch
import Loftail.SettingsTree
import Loftail.SettingsStore
import Loftail.SpoolIndex
import Loftail.FetchMoments
import Loftail.RemoteTail
import Loftail.TailHistory
import Loftail.SshTailLoop
import Loftail.ConsoleTailLoop
