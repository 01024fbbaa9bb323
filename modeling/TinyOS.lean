import TinyOS.ByteWords
import TinyOS.LibcString
import TinyOS.LibcMemory
import TinyOS.AncestorChain
import TinyOS.NanoFSLayout
import TinyOS.NanoFS
import TinyOS.NanoFSDisk
import TinyOS.NanoFSSpec
import TinyOS.NanoFSTransfer
import TinyOS.StateRuns
import TinyOS.LoopMachines
import TinyOS.NanoFSOps
import TinyOS.NanoFSMachine
import TinyOS.NanoFSEffect
import TinyOS.NanoFSCalls
import TinyOS.NanoFSTree
import TinyOS.NanoFSNames
import TinyOS.NanoFSBlocks
import TinyOS.NanoFSApart
import TinyOS.NanoFSRoundTrip
import TinyOS.NanoFSAppend
import TinyOS.NanoFSImage
import TinyOS.NanoFSPath
import TinyOS.NanoFSWallpaper
import TinyOS.FaultyRuns
import TinyOS.NanoFSChecks
import TinyOS.NanoFSFaults
import TinyOS.RadixTables
import TinyOS.LeafTrees
import TinyOS.Pages
import TinyOS.Pmm
import TinyOS.PmmFirstFit
import TinyOS.PmmInit
import TinyOS.PmmMap
import TinyOS.Multiboot
import TinyOS.MultibootBounds
import TinyOS.PmmRuns
import TinyOS.Vmm
import TinyOS.Kmalloc
import TinyOS.VirtualAccess
import TinyOS.VmmStep
import TinyOS.VmmMap
import TinyOS.VmmTrees
import TinyOS.VmmFailedMaps
import TinyOS.VmmRefine
import TinyOS.VmmSpaces
import TinyOS.VmmBoot
import TinyOS.VmmRoom
import TinyOS.KernelBoot
import TinyOS.KernelTables
import TinyOS.KmallocSpan
import TinyOS.VmmRanges
import TinyOS.Process
import TinyOS.ProcessRuns
import TinyOS.ProcessIds
import TinyOS.Riru
import TinyOS.RiruBounds
import TinyOS.RiruFiles
import TinyOS.RiruPack
import TinyOS.RiruPackValid
import TinyOS.RiruPackBounds
import TinyOS.RiruLoader
import TinyOS.RiruSpaces
import TinyOS.RiruCopy
import TinyOS.RiruFileBuffer
import TinyOS.RiruRoom
import TinyOS.Interrupts
import TinyOS.Framebuffer
import TinyOS.Terminal
import TinyOS.ShellCat
import TinyOS.ShellFields
import TinyOS.EventLogs
import TinyOS.RiruContent
import TinyOS.ExecLeaks
import TinyOS.SyscallWrite
import TinyOS.Acpi
import TinyOS.AcpiReads
import TinyOS.Mouse
import TinyOS.AtaPorts
import TinyOS.WallpaperPack
import TinyOS.TwinRuns
import TinyOS.PartialRuns
import TinyOS.FramebufferDraw
import TinyOS.FramebufferTwin
import TinyOS.FramebufferTouch
import TinyOS.FramebufferPresent
import TinyOS.RiruEvents
import TinyOS.RiruWindow
import TinyOS.VmmResident
import TinyOS.ElfLoader
import TinyOS.ElfBounds
import TinyOS.ElfCopies
import TinyOS.ElfReader
import TinyOS.ElfWindow
import TinyOS.ElfTables
import TinyOS.TerminalScrollback
import TinyOS.TerminalViewport
import TinyOS.TerminalConfined
import TinyOS.ShellInput
import TinyOS.VmmIsolation
import TinyOS.ProgramSpaces
import TinyOS.PackedProgram
import TinyOS.PackedBss
import TinyOS.PackedSegments
import TinyOS.KernelIdentity
import TinyOS.GuiCursor
import TinyOS.DecimalPrint
import TinyOS.GuiLayout
import TinyOS.Panes
import TinyOS.GuiWindow
import TinyOS.GuiPane
import TinyOS.GuiRuns
import TinyOS.GuiDesktop
import TinyOS.EntryStores
import TinyOS.NanoFSStore
import TinyOS.NanoFSSound
import TinyOS.NanoFSRefine
import TinyOS.NanoFSStoreRuns
import TinyOS.ShellCommands
import TinyOS.ShellSessions
import TinyOS.CutRuns
import TinyOS.NanoFSCrash
import TinyOS.TornStores
import TinyOS.NanoFSPower
import TinyOS.NanoFSRestart
import TinyOS.NanoFSDurable
import TinyOS.Keyboard
import TinyOS.ShellTyping
import TinyOS.NanoFSBuilt
import TinyOS.ProgramBoot
