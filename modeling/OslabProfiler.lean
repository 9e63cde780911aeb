import OslabProfiler.Lib.Command
import OslabProfiler.CompKernel.System
import OslabProfiler.CompKernel.Skin
import OslabProfiler.CompKernel.SkinMirror
import OslabProfiler.CompKernel.Molt
import OslabProfiler.CompKernel.MoltExact
import OslabProfiler.CompKernel.Delta
import OslabProfiler.CompKernel.Regeneration
import OslabProfiler.CompKernel.SsuDiff
import OslabProfiler.CompKernel.Comparison
import OslabProfiler.CompKernel.Pipeline
import OslabProfiler.Lib.Text
import OslabProfiler.Server.Number
import OslabProfiler.Server.KernelLog
import OslabProfiler.Server.RequestStats
import OslabProfiler.Server.ResponseTime
import OslabProfiler.Server.BootPage
import OslabProfiler.Server.Versions
import OslabProfiler.Server.Completeness
import OslabProfiler.Server.LogLines
import OslabProfiler.Lib.Slot
import OslabProfiler.Server.Executions
import OslabProfiler.CompKernel.DiffDir
import OslabProfiler.CompKernel.SwapVersions
import OslabProfiler.CompKernel.DiffStream
import OslabProfiler.Lib.Utf8
import OslabProfiler.Server.DiffLog
import OslabProfiler.Server.PathTree
import OslabProfiler.Server.SourceView
import OslabProfiler.Lib.Walk
import OslabProfiler.Server.HashFile
import OslabProfiler.Server.Registration
import OslabProfiler.Lib.PathMap
import OslabProfiler.Server.PathTrie
import OslabProfiler.Server.ViewMode
import OslabProfiler.Server.Utilisation
import OslabProfiler.Server.ReportFaults
import OslabProfiler.Server.FreshNames
import OslabProfiler.CompKernel.Arguments
import OslabProfiler.CompKernel.MoltNames
import OslabProfiler.CompKernel.Neighbours
import OslabProfiler.CompKernel.SkinGuard
import OslabProfiler.Lib.Shell
import OslabProfiler.Lib.ShellLine
import OslabProfiler.Server.CommandLines
import OslabProfiler.Client.DriverChart
import OslabProfiler.Client.PowerUsage
import OslabProfiler.Client.ResponseTable
import OslabProfiler.BootGraph.Drawing
import OslabProfiler.Client.LiveCharts
import OslabProfiler.CompKernel.Prompt
import OslabProfiler.Lib.Tags
import OslabProfiler.Lib.Trie
import OslabProfiler.Server.DirectoryListing
import OslabProfiler.Server.HtmlTree
import OslabProfiler.CompKernel.PromptLoop
import OslabProfiler.Lib.Fields
import OslabProfiler.Lib.Json
import OslabProfiler.Lib.JsonBeginning
import OslabProfiler.Server.ReportText
import OslabProfiler.Server.WriteReport
import OslabProfiler.Server.ComparisonPage
import OslabProfiler.Server.Relay
import OslabProfiler.BootGraph.Fitted
import OslabProfiler.BootGraph.KernelChart
import OslabProfiler.Server.Restarts
import OslabProfiler.Client.BootChart
import OslabProfiler.Client.FileView
import OslabProfiler.Server.Preparation
