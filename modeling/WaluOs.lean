import WaluOs.SlotRing
import WaluOs.EditedLines
import WaluOs.Pty
import WaluOs.PtyRuns
import WaluOs.Keyboard
import WaluOs.KeyboardQueues
import WaluOs.Session
import WaluOs.Tty
import WaluOs.LineDiscipline
import WaluOs.Shell
import WaluOs.ShellTyping
import WaluOs.Loops
import WaluOs.Bitmap
import WaluOs.Multiboot
import WaluOs.Pmm
import WaluOs.PmmRuns
import WaluOs.RadixTable
import WaluOs.Vmm
import WaluOs.VmmRuns
import WaluOs.FrameOwners
import WaluOs.Display
import WaluOs.Console
import WaluOs.ConsoleSim
import WaluOs.ConsoleBounds
import WaluOs.ConsoleBackends
import WaluOs.ConsolePage
import WaluOs.ConsolePicture
import WaluOs.Video
import WaluOs.VideoBounds
import WaluOs.VideoMap
import WaluOs.ReaderQueue
import WaluOs.TtyRuns
import WaluOs.KeyboardDecode
import WaluOs.KeySequences
import WaluOs.ShellPolls
import WaluOs.ShellInput
import WaluOs.ShellReads
import WaluOs.Interrupts
import WaluOs.KeyDrops
import WaluOs.Modifiers
import WaluOs.Scancodes
import WaluOs.Locks
import WaluOs.Pause
import WaluOs.ConsoleUtf8
import WaluOs.ConsoleResync
import WaluOs.PmmCount
import WaluOs.PmmBoot
import WaluOs.PmmReserved
import WaluOs.Probe
import WaluOs.ProbeReads
import WaluOs.CStrings
import WaluOs.Scanf
import WaluOs.Storaged
import WaluOs.Mounts
import WaluOs.StoragedAudit
import WaluOs.Authd
import WaluOs.Walud
import WaluOs.UnitFile
import WaluOs.SessionRuns
import WaluOs.InputSequences
import WaluOs.ControlSequences
import WaluOs.EscapeRestarts
import WaluOs.SelftestRuns
import WaluOs.LineEditor
import WaluOs.TruncatedFlag
import WaluOs.ShellRedraw
import WaluOs.ModeSwitches
import WaluOs.SpelledLines
import WaluOs.Utf8Editing
import WaluOs.ConsoleScreen
import WaluOs.EchoErase
import WaluOs.RustHistory
import WaluOs.CursorPosition
import WaluOs.ParamOverflow
import WaluOs.BoldColors
import WaluOs.EraseRegions
import WaluOs.UnitMeaning
import WaluOs.CommentPieces
import WaluOs.ShadowLines
import WaluOs.ProbeShell
import WaluOs.Pic8259
import WaluOs.Pic
import WaluOs.Idt
import WaluOs.IrqRuns
import WaluOs.MainLoop
import WaluOs.Pit8254
import WaluOs.Pit
import WaluOs.KernelMain
import WaluOs.LeastPool
import WaluOs.PmmPool
import WaluOs.ConsoleSteady
import WaluOs.SerialLog
import WaluOs.SavedCursor
import WaluOs.HistoryRuns
import WaluOs.KernelString
import WaluOs.AuthdMain
import WaluOs.UnitRoundTrip
import WaluOs.Uart16550
import WaluOs.SerialPort
import WaluOs.KeyboardTyping
import WaluOs.TypedCommands
