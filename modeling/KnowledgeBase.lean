import KnowledgeBase.Table
import KnowledgeBase.Search
import KnowledgeBase.Transition
import KnowledgeBase.Program
import KnowledgeBase.Regex
import KnowledgeBase.Splice
import KnowledgeBase.Excision
import KnowledgeBase.JobQueue
import KnowledgeBase.LeaseFencing
import KnowledgeBase.RetryBound
import KnowledgeBase.Recognizers
import KnowledgeBase.Redaction
import KnowledgeBase.Documents
import KnowledgeBase.Pipeline
import KnowledgeBase.ScanJobHandler
import KnowledgeBase.StageHandlers
import KnowledgeBase.Supersession
import KnowledgeBase.Rerun
import KnowledgeBase.ScanRecovery
import KnowledgeBase.Dedup
import KnowledgeBase.Workers
import KnowledgeBase.Conduct
import KnowledgeBase.HandOver
import KnowledgeBase.Stranding
import KnowledgeBase.Searchable
import KnowledgeBase.LostUpdate
import KnowledgeBase.FolderWalk
import KnowledgeBase.Gateway
import KnowledgeBase.AnswerService
import KnowledgeBase.CitationMarkers
import KnowledgeBase.DriveTables
import KnowledgeBase.DriveSync
import KnowledgeBase.DriveItem
import KnowledgeBase.DriveSettle
import KnowledgeBase.Erasure
import KnowledgeBase.DriveHistory
import KnowledgeBase.StageRows
import KnowledgeBase.DriveVersions
import KnowledgeBase.Shelf
import KnowledgeBase.FileSteps
import KnowledgeBase.ShelfOrder
import KnowledgeBase.Vanished
import KnowledgeBase.ImportTracking
import KnowledgeBase.Reconciling
import KnowledgeBase.InheritedTier
import KnowledgeBase.FolderTier
import KnowledgeBase.StrictestTier
import KnowledgeBase.HashRows
import KnowledgeBase.Ranking
import KnowledgeBase.Retrieval
import KnowledgeBase.VisibleSearch
import KnowledgeBase.Withholding
import KnowledgeBase.LiveSearch
import KnowledgeBase.EraseFailure
import KnowledgeBase.FreedContent
import KnowledgeBase.Residue
import KnowledgeBase.RawFiles
import KnowledgeBase.FinalErasure
import KnowledgeBase.CitationMarkers
import KnowledgeBase.Binary64
import KnowledgeBase.Extraction
import KnowledgeBase.Normalization
import KnowledgeBase.ReadableContent
import KnowledgeBase.Chunker
import KnowledgeBase.Passages
import KnowledgeBase.Splitting
import KnowledgeBase.ProseKept
import KnowledgeBase.PassageSize
import KnowledgeBase.TableRows
import KnowledgeBase.SectionCitations
import KnowledgeBase.PictureNotice
import KnowledgeBase.RankTies
import KnowledgeBase.RepeatedQuery
import KnowledgeBase.Printable
import KnowledgeBase.Allowance
import KnowledgeBase.OcrRecord
import KnowledgeBase.OcrWork
import KnowledgeBase.ChartRows
import KnowledgeBase.SmartArt
import KnowledgeBase.WordTables
import KnowledgeBase.Workbook
import KnowledgeBase.Majority
import KnowledgeBase.MonthHeaders
import KnowledgeBase.MonthRepair
import KnowledgeBase.Runs
import KnowledgeBase.Cleaning
import KnowledgeBase.DigitRuns
import KnowledgeBase.HeadingText
import KnowledgeBase.Grouping
import KnowledgeBase.HeaderGrid
import KnowledgeBase.ReadingOrder
import KnowledgeBase.Placeholders
import KnowledgeBase.CrossingRecord
import KnowledgeBase.Forest
import KnowledgeBase.SvgLabels
import KnowledgeBase.Fidelity
import KnowledgeBase.Figures
import KnowledgeBase.Supported
import KnowledgeBase.DocumentPages
import KnowledgeBase.Repositories
import KnowledgeBase.StaleCopies
import KnowledgeBase.Accounts
import KnowledgeBase.Alarm
import KnowledgeBase.CheckDigits
import KnowledgeBase.CheckedNumbers
import KnowledgeBase.DocumentsApi
import KnowledgeBase.HiddenDocuments
import KnowledgeBase.OwnDocuments
import KnowledgeBase.SyncSchedule
import KnowledgeBase.Formats
import KnowledgeBase.Origins
import KnowledgeBase.OwnVectors
import KnowledgeBase.AcceptedFiles
import KnowledgeBase.Backfill
import KnowledgeBase.Intake
