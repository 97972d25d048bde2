import YabroOS.Entry.Gates
import YabroOS.Kernel.Context
import YabroOS.Fd.Reclaim
import YabroOS.Fd.Readiness
import YabroOS.Fd.WatchRuns
import YabroOS.Input.Delivery
import YabroOS.Input.Keyboard
import YabroOS.Memory.CloneDestroy
import YabroOS.Memory.CopyExact
import YabroOS.Memory.ForkAtomic
import YabroOS.Memory.InitStack
import YabroOS.Memory.MmapFiles
import YabroOS.Memory.Mprotect
import YabroOS.Memory.TableTrees
import YabroOS.Shell.Delivery
import YabroOS.Stream.PipeRuns
import YabroOS.Stream.SocketStream
import YabroOS.Vfs.ListDir
import YabroOS.Vfs.WorkingDirs
import YabroOS.Fat.Content
import YabroOS.Fd.Timers
import YabroOS.Kernel.Senders
import YabroOS.Kernel.Wait4
import YabroOS.Vfs.Dirents
import YabroOS.Stream.PtyLines
import YabroOS.Stream.PtyOutput
import YabroOS.Console.Transparent
import YabroOS.Fd.ProcFiles
import YabroOS.Input.Mouse
import YabroOS.Memory.ActiveTables
import YabroOS.Memory.Framebuffer
import YabroOS.Memory.Reservations
import YabroOS.Platform.Acpi
import YabroOS.Shell.Meets
import YabroOS.Time.Clock
import YabroOS.Time.Rtc
import YabroOS.Box.Filters
import YabroOS.Libc.Format
import YabroOS.Libc.Heap
import YabroOS.Shell.Pipeline
import YabroOS.Shell.Expand
import YabroOS.Shell.LineSession
import YabroOS.Shell.Quotes
import YabroOS.Box.Copy
import YabroOS.Box.Printers
import YabroOS.Fat.LongNames
import YabroOS.Memory.GapSearch
import YabroOS.Ports.X11Present
import YabroOS.Ports.XorgLayout
import YabroOS.Shell.EnvMaps
