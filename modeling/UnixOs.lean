import UnixOs.LabelledRun
import UnixOs.CountedLoop
import UnixOs.RingWindow
import UnixOs.ByteMemory
import UnixOs.CString
import UnixOs.X86Stack
import UnixOs.X86String
import UnixOs.X86Paging
import UnixOs.PicDevice
import UnixOs.LinkedChain
import UnixOs.SchedQueue
import UnixOs.SchedRotate
import UnixOs.TerminalScreen
import UnixOs.TerminalVideo
import UnixOs.TerminalConsole
import UnixOs.KeyboardHandler
import UnixOs.TerminalIndependence
import UnixOs.KeyboardBounds
import UnixOs.ModifierKeys
import UnixOs.InterruptedWrite
import UnixOs.CompletedLine
import UnixOs.LineEditing
import UnixOs.InputIsolation
import UnixOs.InterruptController
import UnixOs.RtcDriver
import UnixOs.SyscallHandler
import UnixOs.FileSystem
import UnixOs.ReadData
import UnixOs.KernelState
import UnixOs.Descriptors
import UnixOs.DescriptorTable
import UnixOs.DescriptorRuns
import UnixOs.FileStreams
import UnixOs.DirectoryListing
import UnixOs.DirectoryLookup
import UnixOs.ImageLayout
import UnixOs.DescriptorRange
import UnixOs.ReadPlan
import UnixOs.ReadBounds
import UnixOs.UserPointers
import UnixOs.Execute
import UnixOs.ProcessStart
import UnixOs.PageTables
import UnixOs.NewProcess
import UnixOs.CommandParsing
import UnixOs.ExecuteAcceptance
import UnixOs.Arguments
import UnixOs.ContextSwitch
import UnixOs.ProcessTable
import UnixOs.ProcessExit
import UnixOs.ScheduledCalls
import UnixOs.UserPrograms
import UnixOs.CommandRun
import UnixOs.ShellProgram
import UnixOs.ShellSession
import UnixOs.BlockCopy
import UnixOs.NumberFormat
import UnixOs.Printf
import UnixOs.BlinkList
import UnixOs.BlinkTiming
import UnixOs.FishFrames
import UnixOs.Grep
