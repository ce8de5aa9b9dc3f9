import DuckdbOpendal.Lib.SelfDelimiting
import DuckdbOpendal.Lib.SortedMap
import DuckdbOpendal.Lib.RecordLoader
import DuckdbOpendal.Lib.Mealy
import DuckdbOpendal.Lib.Utf8
import DuckdbOpendal.Lib.PercentCode
import DuckdbOpendal.Lib.Text
import DuckdbOpendal.Ffi
import DuckdbOpendal.Uri
import DuckdbOpendal.Lib.LexicalPath
import DuckdbOpendal.UriSegments
import DuckdbOpendal.Secrets
import DuckdbOpendal.Lib.PublishOnce
import DuckdbOpendal.BuildOperator
import DuckdbOpendal.Lib.Tokens
import DuckdbOpendal.Override
import DuckdbOpendal.Opendal
import DuckdbOpendal.Writer
import DuckdbOpendal.WriteHandle
import DuckdbOpendal.Lib.PatternLanguage
import DuckdbOpendal.Lib.GlobSyntax
import DuckdbOpendal.Lib.SelfSyncCode
import DuckdbOpendal.Lib.GlobCode
import DuckdbOpendal.Lib.Utf8Code
import DuckdbOpendal.GlobMatch
import DuckdbOpendal.Listing
import DuckdbOpendal.Lib.Cursor
import DuckdbOpendal.Table
import DuckdbOpendal.TableList
import DuckdbOpendal.CreateSecret
import DuckdbOpendal.OperatorConfig
import DuckdbOpendal.OptionValues
import DuckdbOpendal.ObjectNames
import DuckdbOpendal.Lib.StrSlice
import DuckdbOpendal.SizeOption
import DuckdbOpendal.SizeUnits
import DuckdbOpendal.OptionSections
import DuckdbOpendal.OperatorOptions
import DuckdbOpendal.Boundary
import DuckdbOpendal.Lib.Rollup
import DuckdbOpendal.Du
import DuckdbOpendal.CopyPlan
import DuckdbOpendal.CopyPaths
import DuckdbOpendal.Glob
import DuckdbOpendal.GlobFrontEnds
import DuckdbOpendal.GlobUrls
import DuckdbOpendal.GlobNames
import DuckdbOpendal.GlobChars
import DuckdbOpendal.ReadHandle
import DuckdbOpendal.ReadSeek
import DuckdbOpendal.Directories
import DuckdbOpendal.Lib.AtomicMove
import DuckdbOpendal.MoveFile
import DuckdbOpendal.Copy
import DuckdbOpendal.Lib.Advance
import DuckdbOpendal.CopyRanges
import DuckdbOpendal.Lib.SequentialMoves
import DuckdbOpendal.CopyAbort
import DuckdbOpendal.CopyScan
import DuckdbOpendal.Lib.ChunkedScan
import DuckdbOpendal.TableScan
import DuckdbOpendal.Lib.ChangeLog
import DuckdbOpendal.Mutations
import DuckdbOpendal.OpenFile
import DuckdbOpendal.FileSystem
import DuckdbOpendal.FileSystemRuns
import DuckdbOpendal.DirectoryRuns
import DuckdbOpendal.ListFiles
import DuckdbOpendal.GlobReads
import DuckdbOpendal.Info
import DuckdbOpendal.Schemes
import DuckdbOpendal.Settings
import DuckdbOpendal.Statements
import DuckdbOpendal.Usage
import DuckdbOpendal.Replace
